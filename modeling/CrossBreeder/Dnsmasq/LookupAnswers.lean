import CrossBreeder.Dnsmasq.CacheLoops

/-!
# What a lookup collects

`cache_find_by_name` and `cache_find_by_addr` link the matches outside the pool one behind the other
and move those of the pool to the front of the LRU list. `Collected` says so for the records that a
loop has kept, in their order, and `Collected.promote`, `Collected.pass` and `Collected.release` are
what the loops do with one record.
-/

namespace CrossBreeder.Dnsmasq

open Foundation

variable {env : Env}

/-! ### The place of the matches -/

theorem orderClass_inter (flags : Flags) : orderClass (flags ∩ {.reverse, .immortal}) =
    orderClass flags := by
  simp [orderClass]

/-- Where the loop of `cache_find_by_name` moves matches to: in front of the first match, whose
flags it remembers. -/
def InsertPlace (s : Cache) (i : ℕ) (front middle : List Addr) : Option (Slot × Flags) → Prop
  | none => True
  | some (place, insFlags) => place = lastSlot Slot.record (.bucket i) front ∧
      ∃ first rest, middle = first :: rest ∧ s.flags first ∩ {.reverse, .immortal} = insFlags

theorem InsertPlace.congr {s s' : Cache} {i : ℕ} {front middle : List Addr}
    {insert : Option (Slot × Flags)} (hflags : ∀ record ∈ middle, s'.flags record = s.flags record)
    (h : InsertPlace s i front middle insert) :
    InsertPlace s' i front middle insert := by
  rcases insert with _ | ⟨place, insFlags⟩
  · trivial
  · obtain ⟨hplace, first, rest, rfl, hfirst⟩ := h
    exact ⟨hplace, first, rest, rfl, by rw [hflags first List.mem_cons_self, hfirst]⟩

variable {s : Cache}

theorem InsertPlace.extend {i : ℕ} {front middle : List Addr} {insert : Option (Slot × Flags)}
    (crecp : Addr) (h : InsertPlace s i front middle insert) :
    InsertPlace s i front (middle ++ [crecp]) insert := by
  rcases insert with _ | ⟨place, insFlags⟩
  · trivial
  · obtain ⟨hplace, first, rest, rfl, hfirst⟩ := h
    exact ⟨hplace, first, rest ++ [crecp], rfl, hfirst⟩

/-! ### Links outside the pool -/

namespace Shape

variable {s : Cache} {g : Ghost} {crecp record : Addr}

theorem next_cacheUnlink (h : Shape env s g) (hlru : crecp ∈ g.lru) (hle : env.cachesize ≤ record) :
    (cacheUnlink s crecp).next record = s.next record := by
  obtain ⟨front, back, hsplit⟩ := List.append_of_mem hlru
  have hlist := h.lru
  rw [hsplit] at hlist
  show bypass s.next (s.prev crecp) crecp record = s.next record
  rw [hlist.prev_eq]
  cases hlast : front.getLast? with
  | none => rfl
  | some last =>
    have hmem : last ∈ g.lru := by
      rw [hsplit]
      exact List.mem_append_left _ (List.mem_of_getLast? hlast)
    exact Function.update_of_ne (Nat.lt_of_lt_of_le (h.lt_of_mem_lru hmem) hle).ne' _ _

theorem next_cacheFree (h : Shape env s g) (hlt : crecp < env.cachesize)
    (hle : env.cachesize ≤ record) : (cacheFree s crecp).next record = s.next record := by
  have hfree : (cacheFree s crecp).next = (linkTail s crecp).next := by
    unfold cacheFree
    dsimp only
    split_ifs <;> rfl
  have hne : record ≠ crecp := (Nat.lt_of_lt_of_le hlt hle).ne'
  rw [hfree]
  unfold linkTail
  dsimp only
  rw [Function.update_of_ne hne, h.lru.tail_eq]
  cases hlast : g.lru.getLast? with
  | none => rfl
  | some last =>
    have hmem := List.mem_of_getLast? hlast
    exact Function.update_of_ne (Nat.lt_of_lt_of_le (h.lt_of_mem_lru hmem) hle).ne' _ _

end Shape

/-! ### The list of answers -/

/-- `*chainp = target`: the last answer is linked to it. -/
theorem Answers.put_linked {answers : Answers} {locals : List Addr} {stop : Option Addr}
    (hans : answers.ans = locals.head?) (hchainp : answers.chainp = locals.getLast?)
    (hlinked : Linked s.next locals stop) (hnodup : locals.Nodup) (target : Option Addr) :
    Linked (answers.put s target).1.next locals target ∧
      (answers.put s target).2.ans = locals.head?.or target ∧
      (answers.put s target).1.crec = s.crec ∧
      (answers.put s target).1.cacheHead = s.cacheHead := by
  unfold Answers.put
  rw [hchainp]
  obtain rfl | ⟨init, last, rfl⟩ := List.eq_nil_or_concat locals
  · refine ⟨trivial, ?_, rfl, rfl⟩
    rw [List.head?_nil, Option.none_or]
    rfl
  · rw [List.concat_eq_append] at *
    have hlast : last ∉ init := by
      rw [List.nodup_append] at hnodup
      exact fun hmem ↦ hnodup.2.2 last hmem last List.mem_cons_self rfl
    rw [List.getLast?_concat]
    refine ⟨hlinked.relink_last hlast, ?_, rfl, rfl⟩
    rw [hans]
    cases init <;> rfl

def localAnswer (test : Crec → Bool) (s : Cache) (crecp : Addr) : Bool :=
  Meets (s.flags crecp) localFlags ∧ test (s.crec crecp)

def poolAnswer (test : Crec → Bool) (s : Cache) (crecp : Addr) : Bool :=
  ¬ Meets (s.flags crecp) localFlags ∧ test (s.crec crecp)

section Filters

variable {test : Crec → Bool} {s s' : Cache} {kept : List Addr} {crecp : Addr}

theorem localAnswer_eq_true :
    localAnswer test s crecp = true ↔ Meets (s.flags crecp) localFlags ∧ test
      (s.crec crecp) = true :=
  decide_eq_true_iff

theorem poolAnswer_eq_true :
    poolAnswer test s crecp = true ↔ ¬ Meets (s.flags crecp) localFlags ∧ test
      (s.crec crecp) = true :=
  decide_eq_true_iff

theorem filter_localAnswer_congr (hcrec : ∀ record ∈ kept, s'.crec record = s.crec record) :
    kept.filter (localAnswer test s') = kept.filter (localAnswer test s) :=
  List.filter_congr fun record hrecord ↦ by
    unfold localAnswer Cache.flags
    rw [hcrec record hrecord]

theorem filter_poolAnswer_congr (hcrec : ∀ record ∈ kept, s'.crec record = s.crec record) :
    kept.filter (poolAnswer test s') = kept.filter (poolAnswer test s) :=
  List.filter_congr fun record hrecord ↦ by
    unfold poolAnswer Cache.flags
    rw [hcrec record hrecord]

end Filters

/-- What a lookup has made of the records that it has kept: the matches outside the pool are linked
one behind the other, and those of the pool are at the front of the LRU list, the last one first. -/
structure Collected (test : Crec → Bool) (s : Cache) (g : Ghost) (answers : Answers)
    (kept : List Addr) : Prop where
  ans : answers.ans = (kept.filter (localAnswer test s)).head?
  chainp : answers.chainp = (kept.filter (localAnswer test s)).getLast?
  linked : ∃ stop, Linked s.next (kept.filter (localAnswer test s)) stop
  lru : ∃ rest, g.lru = (kept.filter (poolAnswer test s)).reverse ++ rest
  nodup : kept.Nodup
  holds : ∀ crecp ∈ kept, g.Holds crecp

namespace Collected

variable {test : Crec → Bool} {s s' : Cache} {g g' : Ghost} {answers : Answers} {kept : List Addr}
  {crecp : Addr} {i : ℕ}

theorem nil (test : Crec → Bool) (s : Cache) (g : Ghost) : Collected test s g ⟨none, none⟩ [] :=
  ⟨rfl, rfl, ⟨none, trivial⟩, ⟨g.lru, rfl⟩, List.nodup_nil, by simp⟩

theorem congr (h : Collected test s g answers kept) (hcrec : s'.crec = s.crec)
    (hnext : s'.next = s.next) (hlru : g'.lru = g.lru)
    (hholds : ∀ record, g.Holds record → g'.Holds record) :
    Collected test s' g' answers kept := by
  have hlocal : kept.filter (localAnswer test s') = kept.filter (localAnswer test s) :=
    filter_localAnswer_congr fun record _ ↦ congrFun hcrec record
  have hpool : kept.filter (poolAnswer test s') = kept.filter (poolAnswer test s) :=
    filter_poolAnswer_congr fun record _ ↦ congrFun hcrec record
  refine ⟨?_, ?_, ?_, ?_, h.nodup, fun record hrecord ↦ hholds record (h.holds record hrecord)⟩
  · rw [hlocal]
    exact h.ans
  · rw [hlocal]
    exact h.chainp
  · rw [hlocal, hnext]
    exact h.linked
  · rw [hpool, hlru]
    exact h.lru

theorem pass (h : Collected test s g answers kept) (hholds : g.Holds crecp) (hnot : crecp ∉ kept)
    (htest : test (s.crec crecp) = false) : Collected test s g answers (kept ++ [crecp]) := by
  have hlocal : (kept ++ [crecp]).filter (localAnswer test s) =
    kept.filter (localAnswer test s) := by
    simp [localAnswer, htest]
  have hpool : (kept ++ [crecp]).filter (poolAnswer test s) = kept.filter (poolAnswer test s) := by
    simp [poolAnswer, htest]
  refine ⟨?_, ?_, ?_, ?_, ?_, ?_⟩
  · rw [hlocal]
    exact h.ans
  · rw [hlocal]
    exact h.chainp
  · rw [hlocal]
    exact h.linked
  · rw [hpool]
    exact h.lru
  · exact List.nodup_append.mpr ⟨h.nodup, List.nodup_singleton _, fun left hleft right hright heq ↦
      hnot (by rwa [← List.mem_singleton.mp hright, ← heq])⟩
  · intro record hrecord
    rcases List.mem_append.mp hrecord with hold | hnew
    · exact h.holds record hold
    · rw [List.mem_singleton.mp hnew]
      exact hholds

theorem split_lru (h : Collected test s g answers kept) (hlru : crecp ∈ g.lru)
    (hnot : crecp ∉ kept) :
    ∃ before behind, g.lru = ((kept.filter (poolAnswer test s)).reverse ++ before) ++
      crecp :: behind := by
  obtain ⟨rest, hrest⟩ := h.lru
  rw [hrest] at hlru
  rcases List.mem_append.mp hlru with hfound | hmore
  · exact absurd (List.mem_filter.mp (List.mem_reverse.mp hfound)).1 hnot
  · obtain ⟨before, behind, rfl⟩ := List.append_of_mem hmore
    exact ⟨before, behind, by rw [hrest, List.append_assoc]⟩

theorem outside (h : Collected test s g answers kept) (hshape : Shape env s g) :
    ∀ record ∈ kept.filter (localAnswer test s), env.cachesize ≤ record ∧ record ∉ g.spare := by
  intro record hrecord
  obtain ⟨hmem, hmatch⟩ := List.mem_filter.mp hrecord
  obtain ⟨j, hj⟩ := h.holds record hmem
  exact ⟨hshape.le_of_hashed hj (localAnswer_eq_true.mp hmatch).1,
    (hshape.member j record hj).apart.2.1⟩

theorem answersOutside (h : Collected test s g answers kept) (hshape : Shape env s g) :
    answers.Outside env g := by
  intro record hrecord
  rw [h.chainp] at hrecord
  exact h.outside hshape record (List.mem_of_getLast? hrecord)

theorem promote (h : Collected test s g answers kept) (hshape : Shape env s g)
    (hloose : g.loose = []) (hmem : crecp ∈ g.chain i) (hnot : crecp ∉ kept)
    (htest : test (s.crec crecp) = true) :
    ∃ g', Steps env Plain (s, g) ((Dnsmasq.promote s answers crecp).1, g') ∧ Frame env g g' ∧
      g'.chain = g.chain ∧ Collected test (Dnsmasq.promote s answers crecp).1 g'
        (Dnsmasq.promote s answers crecp).2 (kept ++ [crecp]) := by
  have hnodup : (kept ++ [crecp]).Nodup :=
    List.nodup_append.mpr ⟨h.nodup, List.nodup_singleton _, fun left hleft right hright heq ↦
      hnot (by rwa [← List.mem_singleton.mp hright, ← heq])⟩
  have hholds : ∀ record ∈ kept ++ [crecp], g.Holds record := by
    intro record hrecord
    rcases List.mem_append.mp hrecord with hold | hnew
    · exact h.holds record hold
    · rw [List.mem_singleton.mp hnew]
      exact ⟨i, hmem⟩
  unfold Dnsmasq.promote
  split_ifs with hlocal
  · -- outside the pool: the last answer
    have hanswer : localAnswer test s crecp = true := by simp [localAnswer, hlocal, htest]
    have hother : poolAnswer test s crecp = false := by simp [poolAnswer, hlocal]
    obtain ⟨stop, hlinked⟩ := h.linked
    obtain ⟨hput, hans, hcrec, -⟩ :=
      answers.put_linked h.ans h.chainp hlinked (h.nodup.filter _) (some crecp)
    have hsteps := (put_steps s (h.answersOutside hshape) (some crecp)).1
    have hfilter : (kept ++ [crecp]).filter (localAnswer test (answers.put s (some crecp)).1) =
        kept.filter (localAnswer test s) ++ [crecp] := by
      rw [filter_localAnswer_congr fun record _ ↦ congrFun hcrec record]
      simp [hanswer]
    have hpoolFilter : (kept ++ [crecp]).filter (poolAnswer test (answers.put s (some crecp)).1) =
        kept.filter (poolAnswer test s) := by
      rw [filter_poolAnswer_congr fun record _ ↦ congrFun hcrec record]
      simp [hother]
    refine ⟨g, hsteps, Frame.refl g, rfl, ?_, ?_, ?_, ?_, hnodup, hholds⟩
    · dsimp only
      rw [hfilter, hans, List.head?_append]
      rfl
    · dsimp only
      rw [hfilter, List.getLast?_concat]
    · dsimp only
      rw [hfilter]
      exact ⟨_, linked_append.mpr ⟨hput, (Option.or_none ..).symm, trivial⟩⟩
    · dsimp only
      rw [hpoolFilter]
      exact h.lru
  · -- of the pool: the front of the list
    have hanswer : poolAnswer test s crecp = true := by simp [poolAnswer, hlocal, htest]
    have hother : localAnswer test s crecp = false := by simp [localAnswer, hlocal]
    have hlru := hshape.mem_lru_of_hashed hloose hmem hlocal
    obtain ⟨before, behind, hsplit⟩ := h.split_lru hlru hnot
    have hunlink : Step env .plain (s, g) (cacheUnlink s crecp, _) := .unlink hsplit
    have hlink : Step env .plain (cacheUnlink s crecp, { g with
        lru := ((kept.filter (poolAnswer test s)).reverse ++ before) ++ behind,
          loose := crecp :: g.loose })
        (cacheLink (cacheUnlink s crecp) crecp, _) := .link rfl
    have hnext : ∀ record ∈ kept.filter (localAnswer test s),
        (cacheLink (cacheUnlink s crecp) crecp).next record = s.next record := by
      intro record hrecord
      have hle := (h.outside hshape record hrecord).1
      have hne : record ≠ crecp := (Nat.lt_of_lt_of_le (hshape.lt_of_mem_lru hlru) hle).ne'
      rw [← hshape.next_cacheUnlink hlru hle]
      exact Function.update_of_ne hne _ _
    have hfilter : (kept ++ [crecp]).filter (localAnswer test s) =
      kept.filter (localAnswer test s) := by
      simp [hother]
    have hpoolFilter : (kept ++ [crecp]).filter (poolAnswer test s) =
        kept.filter (poolAnswer test s) ++ [crecp] := by
      simp [hanswer]
    refine ⟨_, (Steps.single Plain.plain hunlink).tail Plain.plain hlink,
      ⟨rfl, rfl, rfl, rfl, fun _ hrecord ↦ .inl hrecord⟩, rfl, ?_, ?_, ?_, ?_, hnodup, hholds⟩
    · exact h.ans.trans (congrArg List.head? hfilter.symm)
    · exact h.chainp.trans (congrArg List.getLast? hfilter.symm)
    · obtain ⟨stop, hlinked⟩ := h.linked
      refine ⟨stop, ?_⟩
      show Linked _ ((kept ++ [crecp]).filter (localAnswer test s)) stop
      rw [hfilter]
      exact hlinked.congr hnext
    · refine ⟨before ++ behind, ?_⟩
      show crecp :: (((kept.filter (poolAnswer test s)).reverse ++ before) ++ behind) =
        ((kept ++ [crecp]).filter (poolAnswer test s)).reverse ++ (before ++ behind)
      rw [hpoolFilter, List.reverse_append, List.reverse_singleton, List.append_assoc]
      rfl

/-- A record that is taken out and given back. -/
theorem release {front back : List Addr} (h : Collected test s g answers kept)
    (hshape : Shape env s g) (hloose : g.loose = []) (hchain : g.chain i = front ++ crecp :: back)
    (hnot : crecp ∉ kept) : ∃ g', Steps env Plain (s, g)
        (releaseRecord (s.setLink (lastSlot Slot.record (.bucket i) front) (s.hash (.record crecp)))
        crecp, g') ∧
      Frame env g g' ∧ g'.chain = Function.update g.chain i (front ++ back) ∧
      Collected test
        (releaseRecord (s.setLink (lastSlot Slot.record (.bucket i) front) (s.hash (.record crecp)))
        crecp)
        g' answers kept := by
  have hmem : crecp ∈ g.chain i := by simp [hchain]
  have hne : ∀ record ∈ kept, record ≠ crecp :=
    fun record hrecord ↦ ne_of_mem_of_not_mem hrecord hnot
  set t := s.setLink (lastSlot Slot.record (.bucket i) front) (s.hash (.record crecp)) with ht
  have hcrec : ∀ record ∈ kept, (releaseRecord t crecp).crec record = s.crec record :=
    fun record hrecord ↦
    crec_releaseRecord_of_ne t (hne record hrecord)
  have hlocalFilter : kept.filter (localAnswer test (releaseRecord t crecp)) =
    kept.filter (localAnswer test s) :=
    filter_localAnswer_congr hcrec
  have hpoolFilter : kept.filter (poolAnswer test (releaseRecord t crecp)) =
    kept.filter (poolAnswer test s) :=
    filter_poolAnswer_congr hcrec
  -- the records that were kept are still in their chains
  have hholds : ∀ {after : Ghost}, after.chain = Function.update g.chain i (front ++ back) →
      ∀ record ∈ kept, after.Holds record := by
    intro after hafter record hrecord
    obtain ⟨j, hj⟩ := h.holds record hrecord
    refine ⟨j, ?_⟩
    rw [hafter]
    by_cases hji : j = i
    · subst hji
      rw [hchain] at hj
      rw [Function.update_self]
      have := hne record hrecord
      simp only [List.mem_append, List.mem_cons] at hj ⊢
      grind
    · rw [Function.update_of_ne hji]
      exact hj
  have hflags : t.flags crecp = s.flags crecp := rfl
  by_cases hlocal : Meets (s.flags crecp) localFlags
  · have hsame : releaseRecord t crecp = t := by
      unfold releaseRecord
      rw [hflags, if_pos hlocal]
    rw [hsame] at hlocalFilter hpoolFilter ⊢
    obtain ⟨g', hsteps, hframe, hchains, hlru⟩ := steps_release_local hshape hchain hlocal
    exact ⟨g', hsteps, hframe, hchains, h.ans, h.chainp, h.linked, hlru ▸ h.lru, h.nodup,
      hholds hchains⟩
  · have hlru := hshape.mem_lru_of_hashed hloose hmem hlocal
    obtain ⟨before, behind, hsplit⟩ := h.split_lru hlru hnot
    obtain ⟨g', hsteps, hframe, hchains, hlast⟩ := steps_release_pool hshape hchain hsplit
    have hdropped := hshape.step (.drop hchain)
    have hsame : releaseRecord t crecp = cacheFree (cacheUnlink t crecp) crecp := by
      unfold releaseRecord
      rw [hflags, if_neg hlocal]
    rw [hsame] at hlocalFilter hpoolFilter ⊢
    have hnext : ∀ record ∈ kept.filter (localAnswer test s),
        (cacheFree (cacheUnlink t crecp) crecp).next record = s.next record := by
      intro record hrecord
      have hle := (h.outside hshape record hrecord).1
      rw [(hdropped.unlink hsplit).next_cacheFree (hshape.lt_of_mem_lru hlru) hle,
        hdropped.next_cacheUnlink hlru hle]
      rfl
    refine ⟨g', hsteps, hframe, hchains, ?_, ?_, ?_, ?_, h.nodup, hholds hchains⟩
    · exact h.ans.trans (congrArg List.head? hlocalFilter.symm)
    · exact h.chainp.trans (congrArg List.getLast? hlocalFilter.symm)
    · obtain ⟨stop, hlinked⟩ := h.linked
      refine ⟨stop, ?_⟩
      rw [hlocalFilter]
      exact hlinked.congr hnext
    · refine ⟨before ++ (behind ++ [crecp]), ?_⟩
      rw [hlast, hpoolFilter, List.append_assoc]

/-- At the end of a lookup the answers outside the pool and the LRU list behind them are one list.
-/
theorem put (h : Collected test s g answers kept) (hshape : Shape env s g) :
    Steps env Plain (s, g) ((answers.put s s.cacheHead).1, g) ∧
      (answers.put s s.cacheHead).1.crec = s.crec ∧
      (answers.put s s.cacheHead).2.ans = (kept.filter (localAnswer test s) ++ g.lru).head? ∧
      Linked (answers.put s s.cacheHead).1.next
      (kept.filter (localAnswer test s) ++ g.lru) none := by
  obtain ⟨stop, hlinked⟩ := h.linked
  obtain ⟨hput, hans, hcrec, hhead⟩ :=
    answers.put_linked h.ans h.chainp hlinked (h.nodup.filter _) s.cacheHead
  have hsteps := (put_steps s (h.answersOutside hshape) s.cacheHead).1
  have hlru := (hshape.steps hsteps).lru
  have hfirst : s.cacheHead = g.lru.head? := hshape.lru.head_eq
  refine ⟨hsteps, hcrec, ?_, linked_append.mpr ⟨?_, hlru.forward⟩⟩
  · rw [hans, hfirst, List.head?_append]
  · rw [Option.or_none, ← hfirst]
    exact hput

end Collected

/-! ### The loop of `cache_find_by_name` -/

/-- The test of `cache_find_by_name`. -/
def nameTest (name : List UInt8) (prot : Flags) (crec : Crec) : Bool :=
  .forward ∈ crec.flags ∧ Meets crec.flags prot ∧ hostnameIsequal crec.name name

/-- What is known about the loop: about the cache, the answers under construction, the records that
were kept and those to come. -/
structure Sieving (name : List UInt8) (now : ℤ) (prot : Flags)
    (Known : Cache → Answers → List Addr → List Addr → Prop) : Prop where
  moved : ∀ {s : Cache} {answers : Answers} {kept todo : List Addr} (hash : Slot → Option Addr),
    Known s answers kept todo → Known { s with hash := hash } answers kept todo
  found : ∀ {s : Cache} {answers : Answers} {kept todo : List Addr} {crecp : Addr},
    Known s answers kept (crecp :: todo) → isExpired s now crecp = false →
      isOutdatedCnamePointer s crecp = false →
    matchesName s name prot crecp = true →
    Known (promote s answers crecp).1 (promote s answers crecp).2 (kept ++ [crecp]) todo
  passed : ∀ {s : Cache} {answers : Answers} {kept todo : List Addr} {crecp : Addr},
    Known s answers kept (crecp :: todo) → isExpired s now crecp = false →
      isOutdatedCnamePointer s crecp = false →
    matchesName s name prot crecp = false → Known s answers (kept ++ [crecp]) todo
  drop : ∀ {s : Cache} {answers : Answers} {kept todo : List Addr} {crecp : Addr} (up : Slot)
    (following : Option Addr), Known s answers kept (crecp :: todo) →
    ¬ (isExpired s now crecp = false ∧ isOutdatedCnamePointer s crecp = false) →
    Known (releaseRecord (s.setLink up following) crecp) answers kept todo

theorem crec_promote (s : Cache) (answers : Answers) (crecp : Addr) :
    (promote s answers crecp).1.crec = s.crec ∧ (promote s answers crecp).1.uid = s.uid ∧
      (promote s answers crecp).1.hash = s.hash := by
  unfold promote
  split_ifs
  · unfold Answers.put
    cases answers.chainp <;> exact ⟨rfl, rfl, rfl⟩
  · exact ⟨rfl, rfl, rfl⟩

/-- What is known only about the contents of the records is not changed by links. -/
theorem sieving_of_contents {now : ℤ} {Known : Cache → List Addr → List Addr → Prop}
    (hcongr : ∀ {s t : Cache} {kept todo : List Addr}, Known s kept todo → t.crec = s.crec →
      t.uid = s.uid → Known t kept todo)
    (hkeep : ∀ {s : Cache} {kept todo : List Addr} {crecp : Addr}, Known s kept (crecp :: todo) →
      isExpired s now crecp = false → isOutdatedCnamePointer s crecp = false →
      Known s (kept ++ [crecp]) todo)
    (hdrop : ∀ {s : Cache} {kept todo : List Addr} {crecp : Addr} (up : Slot)
      (following : Option Addr), Known s kept (crecp :: todo) →
      ¬ (isExpired s now crecp = false ∧ isOutdatedCnamePointer s crecp = false) →
      Known (releaseRecord (s.setLink up following) crecp) kept todo) (name : List UInt8)
      (prot : Flags) :
    Sieving name now prot fun s _ kept todo ↦ Known s kept todo where
  moved := fun _ hknown ↦ hcongr hknown rfl rfl
  found := fun {s answers _ _ crecp} hknown hexpired houtdated _ ↦
    hcongr (hkeep hknown hexpired houtdated) (crec_promote s answers crecp).1
      (crec_promote s answers crecp).2.1
  passed := fun hknown hexpired houtdated _ ↦ hkeep hknown hexpired houtdated
  drop := fun up following hknown hdead ↦ hdrop up following hknown hdead

variable {Known : Cache → Answers → List Addr → List Addr → Prop}

/-- What is in a chain between two records of one class is of this class. -/
theorem orderClass_between {t : Cache} {g : Ghost} {i : ℕ} {front rest back : List Addr}
    {first crecp : Addr} (hshape : Shape env t g)
    (hchain : g.chain i = front ++ ((first :: rest) ++ crecp :: back))
    (hends : orderClass (t.flags first) = orderClass (t.flags crecp)) :
    ∀ record ∈ first :: rest, orderClass (t.flags record) = orderClass (t.flags crecp) := by
  have hsorted := hshape.order i
  rw [hchain] at hsorted
  have hmiddle := (List.pairwise_append.mp hsorted).2.1
  have hlower := (List.pairwise_cons.mp (List.pairwise_append.mp hmiddle).1).1
  have hupper := (List.pairwise_append.mp hmiddle).2.2
  intro record hrecord
  refine Nat.le_antisymm (hupper record hrecord crecp List.mem_cons_self) ?_
  rcases List.mem_cons.mp hrecord with rfl | hrecord
  · exact hends.symm.le
  · exact hends.symm.le.trans (hlower record hrecord)

theorem holds_moved {g : Ghost} {i : ℕ} {front middle back : List Addr} {crecp record : Addr}
    (hchain : g.chain i = front ++ (middle ++ crecp :: back)) (h : g.Holds record) :
    ({ g with chain := Function.update g.chain i (front ++ crecp :: (middle ++ back)) } :
      Ghost).Holds record := by
  obtain ⟨j, hj⟩ := h
  refine ⟨j, ?_⟩
  by_cases hji : j = i
  · subst hji
    rw [hchain] at hj
    simp only [Function.update_self, List.mem_append, List.mem_cons] at hj ⊢
    grind
  · simpa only [Function.update_of_ne hji] using hj

/-- The loop of `cache_find_by_name`, from behind `front` and `middle`. -/
theorem findNameLoop_collects {name : List UInt8} {now : ℤ} {prot : Flags} {i : ℕ}
    (hsieve : Sieving name now prot Known)
    (todo : List Addr) :
    ∀ (fuel : ℕ) (front middle kept : List Addr) {s : Cache} {g : Ghost} (state : FindState),
      Shape env s g → g.loose = [] → g.chain i = front ++ (middle ++ todo) →
      InsertPlace s i front middle state.insert →
      (∀ record, record ∈ kept ↔ record ∈ front ++ middle) →
      Collected (nameTest name prot) s g state.answers kept → Known s state.answers kept todo →
      todo.length < fuel →
      ∃ g' s' state' kept', findNameLoop name now prot fuel
          (lastSlot Slot.record (.bucket i) (front ++ middle)) todo.head? s state = (s', state') ∧
        Steps env Plain (s, g) (s', g') ∧ Frame env g g' ∧
        Collected (nameTest name prot) s' g' state'.answers kept' ∧ Known s' state'.answers kept'
        [] ∧
        (∀ record, record ∈ g'.chain i ↔ record ∈ kept') ∧ ∀ j, j ≠ i → g'.chain j = g.chain j := by
  induction todo with
  | nil =>
    intro fuel front middle kept s g state _ _ hchain _ hkept hcollected hknown hfuel
    obtain ⟨fuel, rfl⟩ : ∃ k, fuel = k + 1 := ⟨fuel - 1, by simp at hfuel; omega⟩
    refine ⟨g, s, state, kept, rfl, Steps.refl _, Frame.refl g, hcollected, hknown, fun record ↦
      ?_, fun _ _ ↦ rfl⟩
    rw [hchain, List.append_nil, hkept record]
  | cons crecp todo ih =>
    intro fuel front middle kept s g state hshape hloose hchain hplace hkept hcollected hknown hfuel
    obtain ⟨fuel, rfl⟩ : ∃ k, fuel = k + 1 := ⟨fuel - 1, by simp at hfuel; omega⟩
    have hroom : todo.length < fuel := by simpa using hfuel
    have hchain' : g.chain i = (front ++ middle) ++ crecp :: todo := by
      rw [hchain, List.append_assoc]
    have hmem : crecp ∈ g.chain i := by simp [hchain]
    have hnext := hshape.hash_record hchain'
    have hbehind : lastSlot Slot.record (.bucket i) (front ++ (middle ++ [crecp])) =
      .record crecp := by
      rw [← List.append_assoc, lastSlot_concat]
    have hnodup := hshape.nodup i
    rw [hchain'] at hnodup
    have hdone : crecp ∉ front ++ middle := fun hdone ↦
      (List.nodup_append.mp hnodup).2.2 crecp hdone crecp List.mem_cons_self rfl
    have hnot : crecp ∉ kept := fun hin ↦ hdone ((hkept crecp).mp hin)
    have hkeptMore : ∀ record, record ∈ kept ++ [crecp] ↔
      record ∈ front ++ (middle ++ [crecp]) := by
      intro record
      rw [← List.append_assoc, List.mem_append, hkept record, ← List.mem_append]
    simp only [List.head?_cons, findNameLoop]
    split_ifs with hlive hmatch
    · -- a match
      obtain ⟨g', hsteps, hframe, hchains, hcollected'⟩ :=
        hcollected.promote hshape hloose hmem hnot hmatch
      obtain ⟨hcrec, -, hhash⟩ := crec_promote s state.answers crecp
      have hknown' := hsieve.found hknown hlive.1 hlive.2 hmatch
      obtain ⟨answers, hanswers⟩ : ∃ answers, answers = (promote s state.answers crecp).2 :=
        ⟨_, rfl⟩
      obtain ⟨t, ht⟩ : ∃ t, t = (promote s state.answers crecp).1 := ⟨_, rfl⟩
      rw [← ht] at hsteps hcrec hhash
      rw [← ht, ← hanswers] at hcollected' hknown'
      simp only [← ht, ← hanswers]
      have hflags : ∀ record, t.flags record = s.flags record := fun record ↦ by
        rw [Cache.flags, hcrec]
        rfl
      have hshape' : Shape env t g' := hshape.steps hsteps
      have hloose' := hframe.loose.trans hloose
      have hkeep : g'.chain i = front ++ ((middle ++ [crecp]) ++ todo) := by
        rw [hchains, hchain]
        simp
      rcases hinsert : state.insert with _ | ⟨place, insFlags⟩
      · -- the first one
        obtain ⟨g'', s', state', kept', hresult, hsteps', hframe', hlast, hend, hown, hothers⟩ :=
          ih fuel (front ++ middle) [crecp] (kept ++ [crecp])
            ⟨answers, some (lastSlot Slot.record (.bucket i) (front ++ middle),
              s.flags crecp ∩ {.reverse, .immortal})⟩ hshape' hloose' (by rw [hkeep]; simp)
            ⟨rfl, crecp, [], rfl, by rw [hflags]⟩
            (fun record ↦ by rw [hkeptMore record, List.append_assoc]) hcollected' hknown' hroom
        rw [lastSlot_concat, ← hnext] at hresult
        exact ⟨g'', s', state', kept', hresult, hsteps.trans hsteps', hframe.trans hframe',
          hlast, hend, hown,
          fun j hj ↦ by rw [hothers j hj, hchains]⟩
      · rw [hinsert] at hplace
        dsimp only
        split_ifs with horder
        · -- moved in front of the first one
          obtain ⟨hplaceEq, first, rest, rfl, hfirst⟩ := hplace
          have hmoveChain : g'.chain i = front ++ ((first :: rest) ++ crecp :: todo) := by
            rw [hchains, hchain]
          have hends : orderClass (t.flags first) = orderClass (t.flags crecp) := by
            rw [hflags, hflags, ← orderClass_inter, hfirst, ← horder, orderClass_inter]
          have hclass := orderClass_between hshape' hmoveChain hends
          have hmove : Step env .plain (t, g') (_, _) := .move hmoveChain hclass hplaceEq rfl
          have hmoved := hshape'.step hmove
          have hmovedKept : ∀ record, record ∈ kept ++ [crecp] ↔
              record ∈ (front ++ [crecp]) ++ first :: rest := by
            intro record
            rw [hkeptMore record]
            simp only [List.mem_append, List.mem_cons, List.not_mem_nil, or_false]
            grind
          have hslot : lastSlot Slot.record (.bucket i) (front ++ first :: rest) =
              lastSlot Slot.record (.bucket i) ((front ++ [crecp]) ++ first :: rest) := by
            rw [lastSlot_append, lastSlot_append, lastSlot_cons, lastSlot_cons]
          obtain ⟨g'', s', state', kept', hresult, hsteps', hframe', hlast, hend, hown, hothers⟩ :=
            ih fuel (front ++ [crecp]) (first :: rest) (kept ++ [crecp]) ⟨answers,
              some (.record crecp, insFlags)⟩
              hmoved hloose'
              (by
                simp only [Function.update_self]
                simp)
              ⟨by rw [lastSlot_concat], first, rest, rfl, by rw [← hfirst, ← hflags]; rfl⟩
              hmovedKept
              (hcollected'.congr rfl rfl rfl fun _ ↦ holds_moved hmoveChain)
                (hsieve.moved _ (hsieve.moved _ (hsieve.moved _ hknown'))) hroom
          rw [← hslot, ← hnext] at hresult
          refine ⟨g'', s', state', kept', hresult, (hsteps.tail Plain.plain hmove).trans hsteps',
            ?_, hlast, hend,
            hown, fun j hj ↦ ?_⟩
          · have hmoveFrame : Frame env g' { g' with
                chain := Function.update g'.chain i
                  (front ++ crecp :: ((first :: rest) ++ todo)) } :=
              ⟨rfl, rfl, rfl, rfl, fun _ hrecord ↦ .inl hrecord⟩
            exact hframe.trans (hmoveFrame.trans hframe')
          · rw [hothers j hj, ← hchains]
            exact Function.update_of_ne hj _ _
        · obtain ⟨g'', s', state', kept', hresult, hsteps', hframe', hlast, hend, hown, hothers⟩ :=
            ih fuel front (middle ++ [crecp]) (kept ++ [crecp]) ⟨answers, some (place, insFlags)⟩
              hshape' hloose' hkeep
              ((hplace.congr fun record _ ↦ hflags record).extend crecp) hkeptMore
                hcollected' hknown' hroom
          rw [hbehind, ← hnext] at hresult
          exact ⟨g'', s', state', kept', hresult, hsteps.trans hsteps', hframe.trans hframe',
            hlast, hend, hown,
            fun j hj ↦ by rw [hothers j hj, hchains]⟩
    · -- another name
      have hrest := ih fuel front (middle ++ [crecp]) (kept ++ [crecp]) state hshape hloose
        (show g.chain i = front ++ ((middle ++ [crecp]) ++ todo) by rw [hchain]; simp)
        (hplace.extend crecp) hkeptMore
          (hcollected.pass ⟨i, hmem⟩ hnot (Bool.not_eq_true _ ▸ hmatch))
        (hsieve.passed hknown hlive.1 hlive.2 (Bool.not_eq_true _ ▸ hmatch)) hroom
      rw [hbehind, ← hnext] at hrest
      exact hrest
    · -- expired
      obtain ⟨g', hsteps, hframe, hchains, hcollected'⟩ :=
        hcollected.release hshape hloose hchain' hnot
      have hknown' :=
        hsieve.drop (lastSlot Slot.record (.bucket i) (front ++ middle)) (s.hash (.record crecp))
        hknown hlive
      obtain ⟨released, hreleased⟩ : ∃ released, released = releaseRecord
        (s.setLink (lastSlot Slot.record (.bucket i) (front ++ middle)) (s.hash (.record crecp)))
          crecp :=
        ⟨_, rfl⟩
      rw [← hreleased] at hsteps hcollected' hknown' ⊢
      have hflags : ∀ record ∈ middle, released.flags record = s.flags record := by
        intro record hrecord
        have hne : record ≠ crecp :=
          ne_of_mem_of_not_mem (List.mem_append_right front hrecord) hdone
        rw [Cache.flags, hreleased, crec_releaseRecord_of_ne _ hne]
        rfl
      obtain ⟨g'', s', state', kept', hresult, hsteps', hframe', hlast, hend, hown, hothers⟩ :=
        ih fuel front middle kept state (hshape.steps hsteps) (hframe.loose.trans hloose)
          (show g'.chain i = front ++ (middle ++ todo) by
            rw [hchains, Function.update_self, List.append_assoc])
          (hplace.congr hflags) hkept hcollected' hknown' hroom
      rw [← hnext] at hresult
      refine ⟨g'', s', state', kept', hresult, hsteps.trans hsteps', hframe.trans hframe',
        hlast, hend, hown,
        fun j hj ↦ ?_⟩
      rw [hothers j hj, hchains, Function.update_of_ne hj]

@[simp] theorem hashSize_put (s : Cache) (answers : Answers) (target : Option Addr) :
    (answers.put s target).1.hashSize = s.hashSize := by
  unfold Answers.put
  cases answers.chainp <;> rfl

@[simp] theorem hashSize_promote (s : Cache) (answers : Answers) (crecp : Addr) :
    (promote s answers crecp).1.hashSize = s.hashSize := by
  unfold promote
  split_ifs
  · exact hashSize_put s answers (some crecp)
  · rfl

/-- What the loop keeps: all that neither the answers, nor the places in the chain, nor a record
that is given back have to do with. -/
theorem keeps_findNameLoop {β : Type*} (f : Cache → β)
    (hpromote : ∀ s answers crecp, f (promote s answers crecp).1 = f s)
    (hlink : ∀ (s : Cache) up target, f (s.setLink up target) = f s)
    (hrelease : ∀ s crecp, f (releaseRecord s crecp) = f s) (name : List UInt8) (now : ℤ)
    (prot : Flags) (fuel : ℕ) : ∀ (up : Slot) (crecp : Option Addr) (s : Cache) (state : FindState),
      f (findNameLoop name now prot fuel up crecp s state).1 = f s := by
  induction fuel with
  | zero => exact fun _ _ _ _ ↦ rfl
  | succ fuel ih =>
    intro up crecp s state
    cases crecp with
    | none => rfl
    | some crecp =>
      simp only [findNameLoop]
      split_ifs
      · split
        · rw [ih, hpromote]
        · split_ifs
          · rw [ih, hlink, hlink, hlink, hpromote]
          · rw [ih, hpromote]
      · exact ih _ _ _ _
      · rw [ih, hrelease, hlink]

theorem hashSize_cacheFindByName (env : Env) (s : Cache) (crecp : Option Addr) (name : List UInt8)
    (now : ℤ) (prot : Flags) :
    (cacheFindByName env s crecp name now prot).1.hashSize = s.hashSize := by
  cases crecp with
  | some crecp => rfl
  | none =>
    exact (hashSize_put _ _ _).trans (keeps_findNameLoop Cache.hashSize hashSize_promote
      (fun _ _ _ ↦ rfl) hashSize_releaseRecord name now prot s.walkFuel _ _ s _)

/-! ### The result of a lookup -/

/-- The answers outside the pool, those of the pool, and the rest of the LRU list. -/
def answerList (test : Crec → Bool) (s : Cache) (kept rest : List Addr) : List Addr :=
  kept.filter (localAnswer test s) ++ ((kept.filter (poolAnswer test s)).reverse ++ rest)

/-- The state after a lookup that has kept some records: its answers and the rest of the LRU list
are one list, and what is returned is the first of them if it is a match. -/
structure Answering (test : Crec → Bool) (s : Cache) (g : Ghost) (answer : Option Addr)
    (kept rest : List Addr) : Prop where
  answer : answer = acceptAnswer (answerList test s kept rest).head? fun crecp ↦ test (s.crec crecp)
  linked : Linked s.next (answerList test s kept rest) none
  lru : g.lru = (kept.filter (poolAnswer test s)).reverse ++ rest
  nodup : kept.Nodup
  holds : ∀ crecp ∈ kept, g.Holds crecp

variable {g : Ghost}

theorem Collected.answering {test : Crec → Bool} {answers : Answers} {kept : List Addr}
    (h : Collected test s g answers kept) (hshape : Shape env s g) :
    ∃ rest, Answering test (answers.put s s.cacheHead).1 g
      (acceptAnswer (answers.put s s.cacheHead).2.ans fun crecp ↦
      test ((answers.put s s.cacheHead).1.crec crecp))
      kept rest := by
  obtain ⟨-, hcrec, hans, hlinked⟩ := h.put hshape
  obtain ⟨rest, hrest⟩ := h.lru
  have hsame : ∀ record ∈ kept, (answers.put s s.cacheHead).1.crec record = s.crec record :=
    fun record _ ↦ congrFun hcrec record
  have hlist : answerList test (answers.put s s.cacheHead).1 kept rest =
    kept.filter (localAnswer test s) ++ g.lru := by
    unfold answerList
    rw [filter_localAnswer_congr hsame, filter_poolAnswer_congr hsame, hrest]
  refine ⟨rest, ?_, ?_, ?_, h.nodup, h.holds⟩
  · rw [hlist, hans]
  · rw [hlist]
    exact hlinked
  · rw [filter_poolAnswer_congr hsame]
    exact hrest

/-- What is behind the answers of a lookup does not match, if the lookup has kept every match in the
table. -/
theorem Answering.rest_eq_false {test : Crec → Bool} {answer : Option Addr}
    {kept rest : List Addr} (h : Answering test s g answer kept rest) (hshape : Shape env s g)
    (hunhashed : ∀ crecp ∈ g.unhashed, env.cachesize ≤ crecp)
    (hused : ∀ crec, test crec = true → InUse crec.flags)
    (hkept : ∀ crecp, g.Holds crecp → test (s.crec crecp) = true → crecp ∈ kept) :
    ∀ crecp ∈ rest, test (s.crec crecp) = false := by
  intro crecp hrest
  by_contra htest
  rw [Bool.not_eq_false] at htest
  have hlru : crecp ∈ g.lru := by
    rw [h.lru]
    exact List.mem_append_right _ hrest
  have hlt := hshape.lt_of_mem_lru hlru
  rcases hshape.complete crecp (List.mem_append_left _ hlru) (hused _ htest) with hhashed | hhand
  · have hmem := hkept crecp ⟨_, hhashed⟩ htest
    have hpool := (hshape.lt_iff_of_hashed hhashed).mp hlt
    have hfound : crecp ∈ (kept.filter (poolAnswer test s)).reverse :=
      List.mem_reverse.mpr (List.mem_filter.mpr ⟨hmem, poolAnswer_eq_true.mpr ⟨hpool, htest⟩⟩)
    have hnodup := hshape.lru.nodup
    rw [h.lru] at hnodup
    exact (List.nodup_append.mp hnodup).2.2 crecp hfound crecp hrest rfl
  · exact absurd hlt (Nat.not_lt.mpr (hunhashed crecp hhand))

/-- What the first search for a name does: it keeps some records of the chain of the name, and these
are what is known about them. -/
theorem cacheFindByName_answering {name : List UInt8} {now : ℤ} {prot : Flags}
    (hsieve : Sieving name now prot Known)
    (hshape : Shape env s g) (hloose : g.loose = [])
    (hknown : Known s ⟨none, none⟩ [] (g.chain (hashBucket env s.hashSize name))) :
    ∃ g' kept rest, Steps env Plain (s, g) ((cacheFindByName env s none name now prot).1, g') ∧
      Frame env g g' ∧
      Answering (nameTest name prot) (cacheFindByName env s none name now prot).1 g'
        (cacheFindByName env s none name now prot).2 kept rest ∧
      (∃ t answers, (cacheFindByName env s none name now prot).1 = (answers.put t t.cacheHead).1 ∧
        Known t answers kept []) ∧
      (∀ record, record ∈ g'.chain (hashBucket env s.hashSize name) ↔ record ∈ kept) ∧
      ∀ j, j ≠ hashBucket env s.hashSize name → g'.chain j = g.chain j := by
  have hstart : s.hash (.bucket (hashBucket env s.hashSize name)) =
      (g.chain (hashBucket env s.hashSize name)).head? := by
    rw [(hshape.chained _ (hashBucket_lt env hshape.table name)).link_start, Option.or_none]
  obtain ⟨g', t, state, kept, hresult, hsteps, hframe, hcollected, hend, hown, hothers⟩ :=
    findNameLoop_collects hsieve (g.chain (hashBucket env s.hashSize name)) s.walkFuel [] [] []
      ⟨⟨none, none⟩, none⟩ hshape hloose rfl trivial (fun _ ↦ Iff.rfl) (Collected.nil _ s g) hknown
      (hshape.length_chain_lt _)
  rw [List.append_nil, lastSlot_nil, ← hstart] at hresult
  have hshape' : Shape env t g' := hshape.steps hsteps
  have hput := hcollected.put hshape'
  obtain ⟨rest, hanswering⟩ := hcollected.answering hshape'
  have hfound : cacheFindByName env s none name now prot =
      ((state.answers.put t t.cacheHead).1, acceptAnswer (state.answers.put t t.cacheHead).2.ans
        (matchesName (state.answers.put t t.cacheHead).1 name prot)) := by
    unfold cacheFindByName
    simp only [hresult]
  rw [hfound]
  exact ⟨g', kept, rest, hsteps.trans hput.1, hframe, hanswering, ⟨t, state.answers, rfl, hend⟩,
    hown, hothers⟩

/-! ### The loops of `cache_find_by_addr` -/

/-- The test of `cache_find_by_addr`. -/
def addrTest (addr : List UInt8) (prot : Flags) (crec : Crec) : Bool :=
  .reverse ∈ crec.flags ∧ Meets crec.flags prot ∧
    sameAddr (if prot = {.ipv6} then 16 else 4) crec.addr addr

/-- What the loops of `cache_find_by_addr` do with a record that has not expired. -/
def keepAddr (addr : List UInt8) (prot : Flags) (s : Cache) (answers : Answers) (crecp : Addr) :
    Cache × Answers :=
  if matchesAddr s addr prot crecp then promote s answers crecp else (s, answers)

/-- What the loops of `cache_find_by_addr` do with one that has. -/
def dropAddr (s : Cache) (answers : Answers) (crecp : Addr) : Cache × Answers :=
  (releaseRecord s crecp, answers)

/-- An entry that a search for an address looks at and leaves in its place. -/
def CurrentReverse (s : Cache) (now : ℤ) (crecp : Addr) : Prop :=
  .reverse ∈ s.flags crecp ∧ isExpired s now crecp = false

theorem CurrentReverse.congr {s s' : Cache} {now : ℤ} {crecp : Addr}
    (hcrec : s'.crec crecp = s.crec crecp) :
    CurrentReverse s' now crecp ↔ CurrentReverse s now crecp := by
  unfold CurrentReverse isExpired Cache.flags
  rw [hcrec]

theorem findAddrChain_collects (addr : List UInt8) (now : ℤ) (prot : Flags) {i : ℕ}
    (todo : List Addr) :
    ∀ {fuel : ℕ} {done kept : List Addr} {s : Cache} {g : Ghost} {answers : Answers},
      Shape env s g → g.loose = [] → g.chain i = done ++ todo → (∀ crecp ∈ todo, crecp ∉ kept) →
      Collected (addrTest addr prot) s g answers kept → todo.length < fuel →
      ∃ g' added behind, Steps env Plain (s, g)
          ((walkChain (findAddrVerdict now) (keepAddr addr prot) dropAddr fuel
            (lastSlot Slot.record (.bucket i) done) todo.head? s answers).1.1, g') ∧
        Frame env g g' ∧
        Collected (addrTest addr prot)
          (walkChain (findAddrVerdict now) (keepAddr addr prot) dropAddr fuel
            (lastSlot Slot.record (.bucket i) done) todo.head? s answers).1.1 g'
          (walkChain (findAddrVerdict now) (keepAddr addr prot) dropAddr fuel
            (lastSlot Slot.record (.bucket i) done) todo.head? s answers).1.2 (kept ++ added) ∧
        g'.chain = Function.update g.chain i (done ++ (added ++ behind)) ∧
        (∀ crecp, crecp ∈ added ↔ crecp ∈ todo ∧ CurrentReverse s now crecp) ∧
        ∀ crecp ∈ behind, crecp ∈ todo ∧ .reverse ∉ s.flags crecp := by
  induction todo with
  | nil =>
    intro fuel done kept s g answers _ _ hchain _ hcollected hfuel
    obtain ⟨fuel, rfl⟩ : ∃ k, fuel = k + 1 := ⟨fuel - 1, by simp at hfuel; omega⟩
    refine ⟨g, [], [], Steps.refl _, Frame.refl g, ?_, ?_, by simp, by simp⟩
    · rw [List.append_nil]
      exact hcollected
    · rw [List.append_nil, ← hchain, Function.update_eq_self]
  | cons crecp todo ih =>
    intro fuel done kept s g answers hshape hloose hchain hnew hcollected hfuel
    obtain ⟨fuel, rfl⟩ : ∃ k, fuel = k + 1 := ⟨fuel - 1, by simp at hfuel; omega⟩
    have hroom : todo.length < fuel := by simpa using hfuel
    have hmem : crecp ∈ g.chain i := by simp [hchain]
    have hnext := hshape.hash_record hchain
    have hnodup := hshape.nodup i
    rw [hchain] at hnodup
    have happart := (List.nodup_cons.mp (List.nodup_append.mp hnodup).2.1).1
    simp only [List.head?_cons, walkChain]
    cases hverdict : findAddrVerdict now s answers crecp with
    | stop =>
      -- no record behind this one is a reverse entry
      have hreverse : .reverse ∉ s.flags crecp := by
        unfold findAddrVerdict at hverdict
        split_ifs at hverdict with h
        exact h
      have hnone : ∀ record ∈ crecp :: todo, .reverse ∉ s.flags record := by
        intro record hrecord
        rcases List.mem_cons.mp hrecord with rfl | hlater
        · exact hreverse
        · have hsorted := hshape.order i
          rw [hchain] at hsorted
          have hle := (List.pairwise_cons.mp (List.pairwise_append.mp hsorted).2.1).1 record hlater
          intro hmore
          simp only [orderClass, hmore, if_true, if_neg hreverse] at hle
          split_ifs at hle <;> omega
      refine ⟨g, [], crecp :: todo, Steps.refl _, Frame.refl g, ?_, ?_, ?_, fun record hrecord ↦
        ⟨hrecord, hnone record hrecord⟩⟩
      · rw [List.append_nil]
        exact hcollected
      · rw [List.nil_append, ← hchain, Function.update_eq_self]
      · intro record
        refine ⟨fun h ↦ absurd h List.not_mem_nil, fun h ↦ absurd h.2.1 (hnone record h.1)⟩
    | keep =>
      have hcurrent : CurrentReverse s now crecp := by
        unfold findAddrVerdict at hverdict
        split_ifs at hverdict with hreverse hexpired
        exact ⟨hreverse, by simpa using hexpired⟩
      have hnot := hnew crecp List.mem_cons_self
      have hone : ∃ g', Steps env Plain (s, g) ((keepAddr addr prot s answers crecp).1, g') ∧
        Frame env g g' ∧
          g'.chain = g.chain ∧ (keepAddr addr prot s answers crecp).1.crec = s.crec ∧
          (keepAddr addr prot s answers crecp).1.hash = s.hash ∧
          Collected (addrTest addr prot) (keepAddr addr prot s answers crecp).1 g'
            (keepAddr addr prot s answers crecp).2 (kept ++ [crecp]) := by
        unfold keepAddr
        split_ifs with hmatch
        · have htest : addrTest addr prot (s.crec crecp) = true := by
            exact decide_eq_true ⟨hcurrent.1, of_decide_eq_true hmatch⟩
          obtain ⟨g', hsteps, hframe, hchains, hcollected'⟩ :=
            hcollected.promote hshape hloose hmem hnot htest
          obtain ⟨hcrec, -, hhash⟩ := crec_promote s answers crecp
          exact ⟨g', hsteps, hframe, hchains, hcrec, hhash, hcollected'⟩
        · have htest : addrTest addr prot (s.crec crecp) = false := by
            exact decide_eq_false fun h ↦ hmatch (decide_eq_true h.2)
          exact ⟨g, Steps.refl _, Frame.refl g, rfl, rfl, rfl, hcollected.pass ⟨i, hmem⟩ hnot htest⟩
      obtain ⟨g', hsteps, hframe, hchains, hcrec, hhash, hcollected'⟩ := hone
      obtain ⟨g'', added, behind, hsteps', hframe', hlast, hchains', hadded, hbehind⟩ :=
        @ih fuel (done ++ [crecp]) (kept ++ [crecp]) _ g' _ (hshape.steps hsteps)
          (hframe.loose.trans hloose) (by rw [hchains, hchain]; simp)
          (fun record hrecord hin ↦ by
            rcases List.mem_append.mp hin with hold | hsame
            · exact hnew record (List.mem_cons_of_mem _ hrecord) hold
            · rw [List.mem_singleton.mp hsame] at hrecord
              exact happart hrecord) hcollected' hroom
      rw [lastSlot_concat, ← hnext, ← hhash] at hsteps' hlast
      refine ⟨g'', crecp :: added, behind, hsteps.trans hsteps', hframe.trans hframe', ?_, ?_, ?_,
        fun record hrecord ↦ ⟨List.mem_cons_of_mem _ (hbehind record hrecord).1, ?_⟩⟩
      · rw [List.append_assoc, List.singleton_append] at hlast
        exact hlast
      · rw [hchains', hchains]
        simp
      · intro record
        have hsame : CurrentReverse (keepAddr addr prot s answers crecp).1 now record ↔
          CurrentReverse s now record :=
          CurrentReverse.congr (congrFun hcrec record)
        rw [List.mem_cons, List.mem_cons, hadded record, hsame]
        constructor
        · rintro (rfl | hlater)
          · exact ⟨.inl rfl, hcurrent⟩
          · exact ⟨.inr hlater.1, hlater.2⟩
        · rintro ⟨rfl | hlater, hboth⟩
          · exact .inl rfl
          · exact .inr ⟨hlater, hboth⟩
      · have hnot := (hbehind record hrecord).2
        unfold Cache.flags at hnot ⊢
        rwa [hcrec] at hnot
    | drop =>
      have hexpired : ¬ CurrentReverse s now crecp := by
        unfold findAddrVerdict at hverdict
        split_ifs at hverdict with _ hexpired
        exact fun h ↦ by simp [h.2] at hexpired
      obtain ⟨g', hsteps, hframe, hchains, hcollected'⟩ :=
        hcollected.release hshape hloose hchain (hnew crecp List.mem_cons_self)
      have hcrec : ∀ record ∈ todo,
        (releaseRecord (s.setLink (lastSlot Slot.record (.bucket i) done)
          (s.hash (.record crecp))) crecp).crec record = s.crec record := fun record hrecord ↦
        crec_releaseRecord_of_ne _ (ne_of_mem_of_not_mem hrecord happart)
      obtain ⟨g'', added, behind, hsteps', hframe', hlast, hchains', hadded, hbehind⟩ :=
        @ih fuel done kept _ g' _ (hshape.steps hsteps) (hframe.loose.trans hloose)
          (by rw [hchains, Function.update_self])
          (fun record hrecord ↦ hnew record (List.mem_cons_of_mem _ hrecord)) hcollected' hroom
      rw [← hnext] at hsteps' hlast
      refine ⟨g'', added, behind, hsteps.trans hsteps', hframe.trans hframe', hlast, ?_, ?_,
        fun record hrecord ↦ ⟨List.mem_cons_of_mem _ (hbehind record hrecord).1, ?_⟩⟩
      · rw [hchains', hchains, Function.update_idem]
      · intro record
        rw [hadded record, List.mem_cons]
        constructor
        · rintro ⟨hlater, hcurrent⟩
          exact ⟨.inr hlater, (CurrentReverse.congr (hcrec record hlater)).mp hcurrent⟩
        · rintro ⟨rfl | hlater, hcurrent⟩
          · exact absurd hcurrent hexpired
          · exact ⟨hlater, (CurrentReverse.congr (hcrec record hlater)).mpr hcurrent⟩
      · obtain ⟨hlater, hnot⟩ := hbehind record hrecord
        unfold Cache.flags at hnot ⊢
        rwa [hcrec record hlater] at hnot

theorem hashSize_findAddrChain (addr : List UInt8) (now : ℤ) (prot : Flags) (fuel : ℕ) :
    ∀ (up : Slot) (crecp : Option Addr) (s : Cache) (answers : Answers),
      (walkChain (findAddrVerdict now) (keepAddr addr prot) dropAddr fuel up crecp s
      answers).1.1.hashSize =
        s.hashSize := by
  induction fuel with
  | zero => exact fun _ _ _ _ ↦ rfl
  | succ fuel ih =>
    intro up crecp s answers
    cases crecp with
    | none => rfl
    | some crecp =>
      simp only [walkChain]
      split
      · rfl
      · rw [ih]
        unfold keepAddr
        split_ifs
        · exact hashSize_promote s answers crecp
        · rfl
      · rw [ih]
        exact hashSize_releaseRecord _ crecp

theorem hashSize_findAddr (buckets : List ℕ) (addr : List UInt8) (now : ℤ) (prot : Flags) :
    ∀ (s : Cache) (answers : Answers), (buckets.foldl
      (fun state i ↦
      (walkBucket (findAddrVerdict now) (keepAddr addr prot) dropAddr i state.1 state.2).1)
      (s, answers)).1.hashSize = s.hashSize := by
  induction buckets with
  | nil => exact fun _ _ ↦ rfl
  | cons i buckets ih =>
    intro s answers
    rw [List.foldl_cons]
    exact (ih _ _).trans (hashSize_findAddrChain addr now prot s.walkFuel (.bucket i) _ s answers)

theorem findAddrTable_collects (addr : List UInt8) (now : ℤ) (prot : Flags)
    (hshape : Shape env s g) (hloose : g.loose = []) :
    ∃ g' kept, Steps env Plain (s, g)
        ((walkTable (findAddrVerdict now) (keepAddr addr prot) dropAddr s ⟨none, none⟩).1, g') ∧
      Frame env g g' ∧
      Collected (addrTest addr prot)
      (walkTable (findAddrVerdict now) (keepAddr addr prot) dropAddr s ⟨none, none⟩).1
        g' (walkTable (findAddrVerdict now) (keepAddr addr prot) dropAddr s ⟨none, none⟩).2 kept ∧
      (∀ crecp, crecp ∈ kept ↔ g.Holds crecp ∧ CurrentReverse s now crecp) ∧
      (∀ crecp, g'.Holds crecp → .reverse ∈ s.flags crecp → crecp ∈ kept) := by
  -- after the first `count` chains
  have hloop : ∀ count ≤ s.hashSize, ∃ g' kept, ∃ state : Cache × Answers,
      (List.range count).foldl
        (fun state i ↦
          (walkBucket (findAddrVerdict now) (keepAddr addr prot) dropAddr i state.1 state.2).1)
        (s, ⟨none, none⟩) = state ∧ Steps env Plain (s, g) (state.1, g') ∧ Frame env g g' ∧
      Collected (addrTest addr prot) state.1 g' state.2 kept ∧
      (∀ crecp, crecp ∈ kept ↔ (∃ i < count, crecp ∈ g.chain i) ∧ CurrentReverse s now crecp) ∧
      (∀ i, count ≤ i → g'.chain i = g.chain i) ∧
      ∀ i < count, ∀ crecp ∈ g'.chain i, .reverse ∈ s.flags crecp → crecp ∈ kept := by
    intro count
    induction count with
    | zero =>
      intro _
      exact ⟨g, [], _, rfl, Steps.refl _, Frame.refl g, Collected.nil _ s g,
        by simp, fun _ _ ↦ rfl, by simp⟩
    | succ count ih =>
      intro hcount
      obtain ⟨g', kept, ⟨t, answers⟩, hstate, hsteps, hframe, hcollected, hkept, hlater, hdone⟩ :=
        ih (by omega)
      have hshape' : Shape env t g' := hshape.steps hsteps
      have hcrec : ∀ record, g'.Holds record → t.crec record = s.crec record := fun record hrecord ↦
        hshape.crec_of_holds hsteps hrecord
      have hown := hlater count (Nat.le_refl _)
      have hnew : ∀ crecp ∈ g'.chain count, crecp ∉ kept := by
        intro crecp hmem hin
        obtain ⟨⟨i, hi, hother⟩, -⟩ := (hkept crecp).mp hin
        rw [hown] at hmem
        exact absurd (hshape.chain_unique hother hmem) (by omega)
      have hsize : t.hashSize = s.hashSize := by
        have hfold := hashSize_findAddr (List.range count) addr now prot s ⟨none, none⟩
        rw [hstate] at hfold
        exact hfold
      have hstart : t.hash (.bucket count) = (g'.chain count).head? := by
        rw [(hshape'.chained count (by omega)).link_start, Option.or_none]
      obtain ⟨g'', added, behind, hsteps', hframe', hcollected', hchains, hadded, hbehind⟩ :=
        @findAddrChain_collects env addr now prot count (g'.chain count) t.walkFuel [] kept t g'
          answers hshape'
          (hframe.loose.trans hloose) rfl hnew hcollected (hshape'.length_chain_lt count)
      rw [lastSlot_nil, ← hstart] at hsteps' hcollected'
      have hcurrent : ∀ crecp ∈ g'.chain count, CurrentReverse t now crecp ↔
        CurrentReverse s now crecp :=
        fun crecp hmem ↦ CurrentReverse.congr (hcrec crecp ⟨count, hmem⟩)
      refine ⟨g'', kept ++ added, _, ?_, hsteps.trans hsteps', hframe.trans hframe',
        hcollected', ?_, ?_, ?_⟩
      · rw [List.range_succ, List.foldl_append, hstate]
        rfl
      · intro crecp
        rw [List.mem_append, hkept crecp, hadded crecp]
        constructor
        · rintro (⟨⟨i, hi, hmem⟩, hreverse⟩ | ⟨hmem, hreverse⟩)
          · exact ⟨⟨i, by omega, hmem⟩, hreverse⟩
          · exact ⟨⟨count, by omega, hown ▸ hmem⟩, (hcurrent crecp hmem).mp hreverse⟩
        · rintro ⟨⟨i, hi, hmem⟩, hreverse⟩
          rcases Nat.lt_succ_iff_lt_or_eq.mp hi with hless | rfl
          · exact .inl ⟨⟨i, hless, hmem⟩, hreverse⟩
          · rw [← hown] at hmem
            exact .inr ⟨hmem, (hcurrent crecp hmem).mpr hreverse⟩
      · intro i hi
        rw [hchains, Function.update_of_ne (by omega), hlater i (by omega)]
      · intro i hi crecp hmem hreverse
        rw [hchains] at hmem
        by_cases hlast : i = count
        · rw [hlast, Function.update_self, List.nil_append] at hmem
          rcases List.mem_append.mp hmem with hnew | hold
          · exact List.mem_append_right _ hnew
          · obtain ⟨hin, hnot⟩ := hbehind crecp hold
            unfold Cache.flags at hnot hreverse
            rw [hcrec crecp ⟨count, hin⟩] at hnot
            exact absurd hreverse hnot
        · rw [Function.update_of_ne hlast] at hmem
          exact List.mem_append_left _ (hdone i (by omega) crecp hmem hreverse)
  obtain ⟨g', kept, state, hstate, hsteps, hframe, hcollected, hkept, -, hdone⟩ :=
    hloop s.hashSize (Nat.le_refl _)
  have hwalk : walkTable (findAddrVerdict now) (keepAddr addr prot) dropAddr s ⟨none, none⟩ =
    state := hstate
  rw [hwalk]
  refine ⟨g', kept, hsteps, hframe, hcollected, fun crecp ↦ ?_, ?_⟩
  · rw [hkept crecp]
    refine and_congr_left fun _ ↦
      ⟨fun ⟨i, _, hmem⟩ ↦ ⟨i, hmem⟩, fun ⟨i, hmem⟩ ↦ ⟨i, hshape.lt_hashSize hmem, hmem⟩⟩
  · rintro crecp ⟨i, hmem⟩ hreverse
    have hsize : state.1.hashSize = s.hashSize := by
      have hfold := hashSize_findAddr (List.range s.hashSize) addr now prot s ⟨none, none⟩
      rw [hstate] at hfold
      exact hfold
    have hi := (hshape.steps hsteps).lt_hashSize hmem
    exact hdone i (by rw [← hsize]; exact hi) crecp hmem hreverse

theorem accepted_eq_addrTest (addr : List UInt8) (prot : Flags) (s : Cache) :
    (fun ans ↦ decide (.reverse ∈ s.flags ans ∧ matchesAddr s addr prot ans = true)) =
      fun crecp ↦ addrTest addr prot (s.crec crecp) := by
  funext crecp
  rw [Bool.eq_iff_iff]
  constructor
  · intro h
    obtain ⟨hreverse, hmatch⟩ := of_decide_eq_true h
    exact decide_eq_true ⟨hreverse, of_decide_eq_true hmatch⟩
  · intro h
    obtain ⟨hreverse, hmatch⟩ := of_decide_eq_true h
    exact decide_eq_true ⟨hreverse, decide_eq_true hmatch⟩

/-- What the first search for an address does: it keeps the reverse entries of the table that have
not expired. -/
theorem cacheFindByAddr_answering (hshape : Shape env s g) (hloose : g.loose = [])
    (addr : List UInt8) (now : ℤ) (prot : Flags) :
    ∃ g' kept rest, Steps env Plain (s, g) ((cacheFindByAddr s none addr now prot).1, g') ∧
      Frame env g g' ∧ Answering (addrTest addr prot) (cacheFindByAddr s none addr now prot).1 g'
        (cacheFindByAddr s none addr now prot).2 kept rest ∧
      (∀ crecp, crecp ∈ kept ↔ g.Holds crecp ∧ CurrentReverse s now crecp) ∧
      ∀ crecp, g'.Holds crecp → .reverse ∈ s.flags crecp → crecp ∈ kept := by
  obtain ⟨g', kept, hsteps, hframe, hcollected, hkept, hall⟩ :=
    findAddrTable_collects addr now prot hshape hloose
  obtain ⟨state, hstate⟩ : ∃ state, state =
    walkTable (findAddrVerdict now) (keepAddr addr prot) dropAddr s ⟨none, none⟩ := ⟨_, rfl⟩
  rw [← hstate] at hsteps hcollected
  have hshape' : Shape env state.1 g' := hshape.steps hsteps
  obtain ⟨rest, hanswering⟩ := hcollected.answering hshape'
  have hfound : cacheFindByAddr s none addr now prot =
      ((state.2.put state.1 state.1.cacheHead).1,
        acceptAnswer (state.2.put state.1 state.1.cacheHead).2.ans fun crecp ↦
          addrTest addr prot ((state.2.put state.1 state.1.cacheHead).1.crec crecp)) := by
    rw [← accepted_eq_addrTest, hstate]
    rfl
  rw [hfound]
  exact ⟨g', kept, rest, hsteps.trans (hcollected.put hshape').1, hframe, hanswering, hkept, hall⟩

end CrossBreeder.Dnsmasq
