import CrossBreeder.Dnsmasq.CacheCalls

/-!
# All answers to a question

A caller that feeds every answer of a lookup back gets the answers outside the pool and then those
of the pool. `lookups_enumerate` says which they are, in every state that calls of the cache lead
to: all entries that match, have not expired and are no outdated CNAMEs, each of them once.
-/

namespace CrossBreeder.Dnsmasq

open Foundation

variable {env : Env}

/-! ### Feeding answers back -/

/-- The answers that a caller gets who feeds each one back until there is none: `again` is a later
call, with the cache that it leaves. -/
inductive Yields (again : Cache → Addr → Cache × Option Addr) :
    Cache × Option Addr → List Addr → Prop
  | done (s : Cache) : Yields again (s, none) []
  | more {s : Cache} {crecp : Addr} {answers : List Addr} (hrest :
    Yields again (again s crecp) answers) :
      Yields again (s, some crecp) (crecp :: answers)

variable {again : Cache → Addr → Cache × Option Addr}

theorem Yields.unique {found : Cache × Option Addr}
    {answers answers' : List Addr} (h : Yields again found answers)
    (h' : Yields again found answers') : answers = answers' := by
  induction h generalizing answers' with
  | done s =>
    cases h'
    rfl
  | more _ ih =>
    cases h' with
    | more hrest => rw [ih hrest]

variable {s : Cache}

theorem yields_of_linked {accept : Addr → Bool}
    (hagain : ∀ crecp, again s crecp = (s, acceptAnswer (s.next crecp) accept)) {rest : List Addr}
    (hrest : ∀ crecp ∈ rest, accept crecp = false) (answers : List Addr) :
    Linked s.next (answers ++ rest) none → (∀ crecp ∈ answers, accept crecp = true) →
      Yields again (s, acceptAnswer (answers ++ rest).head? accept) answers := by
  induction answers with
  | nil =>
    intro _ _
    cases rest with
    | nil => exact .done s
    | cons crecp rest =>
      have hnone : acceptAnswer ([] ++ crecp :: rest).head? accept = none := by
        simp [acceptAnswer, Option.filter, hrest crecp List.mem_cons_self]
      rw [hnone]
      exact .done s
  | cons crecp answers ih =>
    intro hlinked haccept
    have hsome : acceptAnswer (crecp :: answers ++ rest).head? accept = some crecp := by
      simp [acceptAnswer, Option.filter, haccept crecp List.mem_cons_self]
    rw [hsome]
    refine .more ?_
    have hnext : s.next crecp = (answers ++ rest).head? := hlinked.1.trans (Option.or_none ..)
    rw [hagain, hnext]
    exact ih hlinked.2 fun later hlater ↦ haccept later (List.mem_cons_of_mem _ hlater)

/-- The answers of a lookup, those outside the pool first. -/
def answersOf (test : Crec → Bool) (s : Cache) (kept : List Addr) : List Addr :=
  kept.filter (localAnswer test s) ++ (kept.filter (poolAnswer test s)).reverse

variable {test : Crec → Bool}

theorem mem_answersOf {kept : List Addr} {crecp : Addr} :
    crecp ∈ answersOf test s kept ↔ crecp ∈ kept ∧ test (s.crec crecp) = true := by
  simp only [answersOf, List.mem_append, List.mem_reverse, List.mem_filter, localAnswer_eq_true,
    poolAnswer_eq_true]
  grind

theorem nodup_answersOf {kept : List Addr} (h : kept.Nodup) :
    (answersOf test s kept).Nodup := by
  refine List.nodup_append.mpr ⟨h.filter _, List.nodup_reverse.mpr (h.filter _), ?_⟩
  rintro left hleft right hright rfl
  have hlocal := localAnswer_eq_true.mp (List.mem_filter.mp hleft).2
  have hpool := poolAnswer_eq_true.mp (List.mem_filter.mp (List.mem_reverse.mp hright)).2
  exact hpool.1 hlocal.1

variable {g : Ghost}

theorem Answering.yields
    {answer : Option Addr} {kept rest : List Addr} (h : Answering test s g answer kept rest)
    (hagain : ∀ crecp, again s crecp = (s, acceptAnswer (s.next crecp) fun crecp ↦
      test (s.crec crecp)))
    (hrest : ∀ crecp ∈ rest, test (s.crec crecp) = false) :
    Yields again (s, answer) (answersOf test s kept) := by
  have hlist : answerList test s kept rest = answersOf test s kept ++ rest :=
    (List.append_assoc ..).symm
  have hlinked := h.linked
  have hanswer := h.answer
  rw [hlist] at hlinked hanswer
  rw [hanswer]
  exact yields_of_linked hagain hrest _ hlinked fun crecp hmem ↦ (mem_answersOf.mp hmem).2

/-- Feeding answers back gives the entries, those outside the pool first, each of them once. -/
def Enumerates (s : Cache) (again : Cache → Addr → Cache × Option Addr)
    (first : Cache × Option Addr) (Entry : Addr → Prop) : Prop :=
  ∃ locals pool, Yields again first (locals ++ pool) ∧ (locals ++ pool).Nodup ∧
    (∀ crecp ∈ locals, Meets (s.flags crecp) localFlags) ∧
      (∀ crecp ∈ pool, ¬ Meets (s.flags crecp) localFlags) ∧
    ∀ crecp, crecp ∈ locals ++ pool ↔ Entry crecp

theorem Enumerates.eq_nil {found : Cache × Option Addr}
    {Entry : Addr → Prop} (h : Enumerates s again found Entry) (hnone : found.2 = none)
    (crecp : Addr) : ¬ Entry crecp := by
  obtain ⟨locals, pool, hyields, -, -, -, hall⟩ := h
  obtain ⟨t, answer⟩ := found
  obtain rfl : answer = none := hnone
  rw [← hall crecp]
  generalize locals ++ pool = answers at hyields
  cases hyields
  exact List.not_mem_nil

/-- The answers of a lookup are the entries, if the lookup has kept every match in the table. -/
theorem Answering.enumerates {s t : Cache}
    {g g' : Ghost} {answer : Option Addr} {kept rest : List Addr} {Entry : Addr → Prop}
    (h : Answering test t g' answer kept rest) (hshape : Shape env s g) (hsettled : Settled env g)
    (hsteps : Steps env Plain (s, g) (t, g')) (hframe : Frame env g g')
    (hagain : ∀ crecp, again t crecp = (t, acceptAnswer (t.next crecp) fun crecp ↦
      test (t.crec crecp)))
    (hused : ∀ crec, test crec = true → InUse crec.flags)
    (hall : ∀ crecp, g'.Holds crecp → test (s.crec crecp) = true → crecp ∈ kept)
    (hentry : ∀ crecp, crecp ∈ kept ∧ test (s.crec crecp) = true ↔ Entry crecp) :
    Enumerates s again (t, answer) Entry := by
  have hsame : ∀ {crecp}, g'.Holds crecp → t.crec crecp = s.crec crecp := fun hholds ↦
    hshape.crec_of_holds hsteps hholds
  have hrest := h.rest_eq_false (hshape.steps hsteps)
    (fun crecp hmem ↦ (hframe.unhashed crecp hmem).elim (hsettled.unhashed crecp) id) hused
    (fun crecp hholds htest ↦ hall crecp hholds (by rwa [← hsame hholds]))
  refine ⟨kept.filter (localAnswer test t), (kept.filter (poolAnswer test t)).reverse,
    h.yields hagain hrest, nodup_answersOf h.nodup, ?_, ?_, ?_⟩
  · intro crecp hmem
    obtain ⟨hkept, hlocal⟩ := List.mem_filter.mp hmem
    unfold Cache.flags
    rw [← hsame (h.holds crecp hkept)]
    exact (localAnswer_eq_true.mp hlocal).1
  · intro crecp hmem
    obtain ⟨hkept, hpool⟩ := List.mem_filter.mp (List.mem_reverse.mp hmem)
    unfold Cache.flags
    rw [← hsame (h.holds crecp hkept)]
    exact (poolAnswer_eq_true.mp hpool).1
  · intro crecp
    rw [← hentry crecp]
    refine mem_answersOf.trans (and_congr_right fun hkept ↦ ?_)
    rw [hsame (h.holds crecp hkept)]

/-! ### Records that a search for a name gives back -/

/-- The record has expired or is an outdated CNAME when a search comes to it that has given back
some records of the pool. -/
def stale (s : Cache) (now : ℤ) (freed : List Addr) (crecp : Addr) : Bool :=
  isExpired s now crecp ∨ isOutdatedCnamePointer s crecp ∨
    .cname ∈ s.flags crecp ∧ ∃ target ∈ freed, (s.crec crecp).cnameCache = some target

/-- The records of the pool that a search has given back behind some records of a chain. -/
def givenBack (s : Cache) (now : ℤ) (records : List Addr) : List Addr :=
  records.foldl
    (fun freed crecp ↦
      if stale s now freed crecp ∧ ¬ Meets (s.flags crecp) localFlags then
        crecp :: freed else freed) []

/-- The records of a chain that a search keeps which has gone past some others. -/
def survivors (s : Cache) (now : ℤ) (done : List Addr) : List Addr → List Addr
  | [] => []
  | crecp :: todo =>
    if stale s now (givenBack s now done) crecp then survivors s now (done ++ [crecp]) todo
    else crecp :: survivors s now (done ++ [crecp]) todo

theorem givenBack_concat (s : Cache) (now : ℤ) (done : List Addr) (crecp : Addr) :
    givenBack s now (done ++ [crecp]) =
      if stale s now (givenBack s now done) crecp ∧ ¬ Meets (s.flags crecp) localFlags then
        crecp :: givenBack s now done
      else givenBack s now done := by
  unfold givenBack
  rw [List.foldl_append]
  rfl

theorem mem_givenBack {now : ℤ} {done : List Addr} {crecp : Addr}
    (h : crecp ∈ givenBack s now done) : crecp ∈ done ∧ ¬ Meets (s.flags crecp) localFlags := by
  induction done using List.reverseRecOn with
  | nil => exact absurd h List.not_mem_nil
  | append_singleton done last ih =>
    rw [givenBack_concat] at h
    split_ifs at h with hstale
    · rcases List.mem_cons.mp h with rfl | hold
      · exact ⟨List.mem_append_right _ (List.mem_singleton_self _), hstale.2⟩
      · exact ⟨List.mem_append_left _ (ih hold).1, (ih hold).2⟩
    · exact ⟨List.mem_append_left _ (ih h).1, (ih h).2⟩

theorem mem_survivors {now : ℤ} {todo : List Addr} : ∀ {done : List Addr} {crecp : Addr},
    crecp ∈ survivors s now done todo ↔
      ∃ front back, todo = front ++ crecp :: back ∧ stale s now
      (givenBack s now (done ++ front)) crecp = false := by
  induction todo with
  | nil => simp [survivors]
  | cons first todo ih =>
    intro done crecp
    have hlater : crecp ∈ survivors s now (done ++ [first]) todo ↔ ∃ front back,
        first :: todo = (first :: front) ++ crecp :: back ∧
          stale s now (givenBack s now (done ++ first :: front)) crecp = false := by
      rw [ih]
      simp
    unfold survivors
    split_ifs with hstale
    · rw [hlater]
      constructor
      · rintro ⟨front, back, hsplit, hnot⟩
        exact ⟨first :: front, back, hsplit, hnot⟩
      · rintro ⟨front, back, hsplit, hnot⟩
        cases front with
        | nil =>
          obtain ⟨rfl, -⟩ := List.cons.inj hsplit
          rw [List.append_nil, hstale] at hnot
          cases hnot
        | cons other front =>
          obtain ⟨rfl, -⟩ := List.cons.inj hsplit
          exact ⟨front, back, hsplit, hnot⟩
    · rw [List.mem_cons, hlater]
      constructor
      · rintro (rfl | ⟨front, back, hsplit, hnot⟩)
        · exact ⟨[], todo, rfl, by rw [List.append_nil]; simpa using hstale⟩
        · exact ⟨first :: front, back, hsplit, hnot⟩
      · rintro ⟨front, back, hsplit, hnot⟩
        cases front with
        | nil => exact .inl (List.cons.inj hsplit).1.symm
        | cons other front =>
          obtain ⟨rfl, -⟩ := List.cons.inj hsplit
          exact .inr ⟨front, back, hsplit, hnot⟩

structure Unswept (env : Env) (s₀ s : Cache) (freed : List Addr) : Prop where
  same : ∀ crecp, crecp ∉ freed → s.crec crecp = s₀.crec crecp
  number : ∀ crecp ∈ freed, s₀.uid ≤ (s.crec crecp).uid
  uid : s₀.uid ≤ s.uid

theorem Unswept.refl (env : Env) (s : Cache) : Unswept env s s [] :=
  ⟨fun _ _ ↦ rfl, fun _ hmem ↦ absurd hmem List.not_mem_nil, Nat.le_refl _⟩

theorem Links.cnameUid_lt (h : Links env s g) (hshape : Shape env s g) {crecp target : Addr}
    (hholds : g.Holds crecp) (hcname : .cname ∈ s.flags crecp)
    (hlink : (s.crec crecp).cnameCache = some target) (htarget : target < env.cachesize) :
    (s.crec crecp).cnameUid < s.uid := by
  obtain ⟨i, hi⟩ := hholds
  by_cases hlt : crecp < env.cachesize
  · exact (h.bounds.link ⟨hlt, (hshape.member i crecp hi).used, hcname, hlink⟩).2
  · obtain ⟨other, hother, hle, -⟩ := h.outside i crecp hi (Nat.le_of_not_lt hlt) hcname trivial
    rw [hlink] at hother
    cases hother
    exact absurd htarget (Nat.not_lt.mpr hle)

theorem Unswept.stale_eq {s₀ s : Cache} {freed : List Addr} (h : Unswept env s₀ s freed)
    (hlinks : Links env s₀ g) (hshape : Shape env s₀ g)
    (hfreed : ∀ crecp ∈ freed, crecp < env.cachesize) (now : ℤ)
    {crecp : Addr} (hholds : g.Holds crecp) (hnot : crecp ∉ freed) :
    stale s₀ now freed crecp = false ↔ isExpired s now crecp = false ∧
      isOutdatedCnamePointer s crecp = false := by
  have hcrec := h.same crecp hnot
  have hflags : s.flags crecp = s₀.flags crecp := congrArg Crec.flags hcrec
  have hexpired : isExpired s now crecp = isExpired s₀ now crecp := by
    unfold isExpired
    rw [hflags, hcrec]
  have houtdated : isOutdatedCnamePointer s crecp = true ↔ isOutdatedCnamePointer s₀ crecp = true ∨
      .cname ∈ s₀.flags crecp ∧ ∃ target ∈ freed, (s₀.crec crecp).cnameCache = some target := by
    unfold isOutdatedCnamePointer
    rw [hflags, hcrec]
    by_cases hcname : .cname ∈ s₀.flags crecp
    · rw [if_neg (not_not_intro hcname), if_neg (not_not_intro hcname)]
      cases hlink : (s₀.crec crecp).cnameCache with
      | none => simp
      | some target =>
        by_cases htarget : target ∈ freed
        · have hlt := hlinks.cnameUid_lt hshape hholds hcname hlink (hfreed target htarget)
          have hne : (s₀.crec crecp).cnameUid ≠ (s.crec target).uid :=
            (Nat.lt_of_lt_of_le hlt (h.number target htarget)).ne
          simp [hne, hcname, htarget]
        · have hsame := h.same target htarget
          have hsameFlags : s.flags target = s₀.flags target := congrArg Crec.flags hsame
          simp only [hsame, hsameFlags]
          simp [htarget]
    · simp [hcname]
  unfold stale
  rw [decide_eq_false_iff_not, hexpired, ← houtdated]
  simp

theorem Unswept.release {s₀ s : Cache} {freed : List Addr} (h : Unswept env s₀ s freed)
    (crecp : Addr) (up : Slot) (following : Option Addr) :
    Unswept env s₀ (releaseRecord (s.setLink up following) crecp)
      (if Meets (s.flags crecp) localFlags then freed else crecp :: freed) := by
  have hflags : (s.setLink up following).flags crecp = s.flags crecp := rfl
  split_ifs with hlocal
  · have hsame : releaseRecord (s.setLink up following) crecp = s.setLink up following := by
      unfold releaseRecord
      rw [hflags, if_pos hlocal]
    rw [hsame]
    exact ⟨h.same, h.number, h.uid⟩
  · have hsame : releaseRecord (s.setLink up following) crecp =
        cacheFree (cacheUnlink (s.setLink up following) crecp) crecp := by
      unfold releaseRecord
      rw [hflags, if_neg hlocal]
    rw [hsame]
    refine ⟨fun record hrecord ↦ ?_, fun record hrecord ↦ ?_, ?_⟩
    · rw [List.mem_cons, not_or] at hrecord
      rw [crec_cacheFree_of_ne _ hrecord.1]
      exact h.same record hrecord.2
    · by_cases heq : record = crecp
      · rw [heq, Shape.crec_cacheFree, Function.update_self]
        exact h.uid
      · rw [crec_cacheFree_of_ne _ heq]
        exact h.number record ((List.mem_cons.mp hrecord).resolve_left heq)
    · rw [uid_cacheFree]
      exact h.uid.trans (Nat.le_succ _)

/-- What a search for a name knows: the records that it will have kept can be told from the cache as
it was at the start. -/
def SearchKnown (env : Env) (s₀ : Cache) (now : ℤ) (chain : List Addr) (s : Cache)
    (kept todo : List Addr) : Prop :=
  ∃ done, chain = done ++ todo ∧ Unswept env s₀ s (givenBack s₀ now done) ∧
    kept ++ survivors s₀ now done todo = survivors s₀ now [] chain

theorem sieving_searchKnown {s₀ : Cache} (hshape : Shape env s₀ g) (hlinks : Links env s₀ g)
    (now : ℤ) (i : ℕ) (name : List UInt8) (prot : Flags) :
    Sieving name now prot fun s _ kept todo ↦ SearchKnown env s₀ now (g.chain i) s kept todo := by
  have hstale : ∀ {s : Cache} {done todo : List Addr} {crecp : Addr}, g.chain i = done ++
    crecp :: todo →
      Unswept env s₀ s (givenBack s₀ now done) →
      crecp ∉ givenBack s₀ now done ∧ (stale s₀ now (givenBack s₀ now done) crecp = false ↔
        isExpired s now crecp = false ∧ isOutdatedCnamePointer s crecp = false) := by
    intro s done todo crecp hchain hunswept
    have hnodup := hshape.nodup i
    rw [hchain] at hnodup
    have hnot : crecp ∉ givenBack s₀ now done := fun hmem ↦
      (List.nodup_append.mp hnodup).2.2 crecp (mem_givenBack hmem).1 crecp List.mem_cons_self rfl
    refine ⟨hnot, hunswept.stale_eq hlinks hshape (fun record hrecord ↦ ?_) now ⟨i, by
      simp [hchain]⟩ hnot⟩
    have hback := mem_givenBack hrecord
    have hmem : record ∈ g.chain i := by
      rw [hchain]
      exact List.mem_append_left _ hback.1
    exact (hshape.lt_iff_of_hashed hmem).mpr hback.2
  refine sieving_of_contents ?_ ?_ ?_ name prot
  · rintro s t kept todo ⟨done, hchain, hunswept, hall⟩ hcrec huid
    refine ⟨done, hchain, ⟨fun record hrecord ↦ ?_, fun record hrecord ↦ ?_, ?_⟩, hall⟩
    · rw [hcrec]
      exact hunswept.same record hrecord
    · rw [hcrec]
      exact hunswept.number record hrecord
    · rw [huid]
      exact hunswept.uid
  · rintro s kept todo crecp ⟨done, hchain, hunswept, hall⟩ hexpired houtdated
    have hnot := (hstale hchain hunswept).2.mpr ⟨hexpired, houtdated⟩
    refine ⟨done ++ [crecp], by simp [hchain], ?_, ?_⟩
    · rw [givenBack_concat, hnot]
      simpa using hunswept
    · rw [← hall, survivors, hnot]
      simp
  · rintro s kept todo crecp up following ⟨done, hchain, hunswept, hall⟩ hdead
    obtain ⟨hnew, hiff⟩ := hstale hchain hunswept
    have hgone : stale s₀ now (givenBack s₀ now done) crecp = true := by
      rw [← Bool.not_eq_false, hiff]
      exact hdead
    have hflags : s.flags crecp = s₀.flags crecp := congrArg Crec.flags (hunswept.same crecp hnew)
    refine ⟨done ++ [crecp], by simp [hchain], ?_, ?_⟩
    · have hreleased := hunswept.release crecp up following
      rw [hflags] at hreleased
      rw [givenBack_concat, hgone]
      by_cases hlocal : Meets (s₀.flags crecp) localFlags
      · simpa [hlocal] using hreleased
      · simpa [hlocal] using hreleased
    · rw [← hall, survivors, hgone, if_pos rfl]

/-! ### What the answers are -/

def OnTheWay (env : Env) (s : Cache) (crecp : Addr) (front : List Addr) : Prop :=
  ∃ back, Chain s.hash Slot.record (.bucket (hashBucket env s.hashSize (s.name crecp)))
    (front ++ crecp :: back) none

/-- The record is a CNAME that leads to one which the search has given back on its way to it. -/
def TargetGivenBack (env : Env) (s : Cache) (now : ℤ) (crecp : Addr) : Prop :=
  .cname ∈ s.flags crecp ∧ ∃ front, OnTheWay env s crecp front ∧
    ∃ target ∈ givenBack s now front, (s.crec crecp).cnameCache = some target

structure CurrentForward (s : Cache) (name : List UInt8) (now : ℤ) (prot : Flags) (crecp : Addr) :
    Prop where
  table : InTable s crecp
  question : matchesName s name prot crecp = true
  current : isExpired s now crecp = false
  leads : isOutdatedCnamePointer s crecp = false

structure ForwardEntry (env : Env) (s : Cache) (name : List UInt8) (now : ℤ) (prot : Flags)
    (crecp : Addr) : Prop extends CurrentForward s name now prot crecp where
  target : ¬ TargetGivenBack env s now crecp

structure ReverseEntry (s : Cache) (addr : List UInt8) (now : ℤ) (prot : Flags) (crecp : Addr) :
    Prop where
  table : InTable s crecp
  reverse : .reverse ∈ s.flags crecp
  question : matchesAddr s addr prot crecp = true
  current : isExpired s now crecp = false

theorem forwardEntry_iff (h : Shape env s g) (name : List UInt8) (now : ℤ) (prot : Flags)
    (crecp : Addr) :
    crecp ∈ survivors s now [] (g.chain (hashBucket env s.hashSize name)) ∧ nameTest name prot
      (s.crec crecp) = true ↔
      ForwardEntry env s name now prot crecp := by
  have hbucket : matchesName s name prot crecp = true →
      hashBucket env s.hashSize (s.name crecp) = hashBucket env s.hashSize name := fun hmatch ↦
    hashBucket_congr env s.hashSize (of_decide_eq_true hmatch).2.2
  have hchained := h.chained _ (hashBucket_lt env h.table name)
  have hstale : ∀ freed, stale s now freed crecp = false ↔
      isExpired s now crecp = false ∧ isOutdatedCnamePointer s crecp = false ∧
        ¬ (.cname ∈ s.flags crecp ∧ ∃ target ∈ freed, (s.crec crecp).cnameCache = some target) := by
    intro freed
    unfold stale
    rw [decide_eq_false_iff_not]
    simp only [not_or, Bool.not_eq_true]
  rw [mem_survivors]
  constructor
  · rintro ⟨⟨front, back, hsplit, hfresh⟩, hmatch⟩
    rw [List.nil_append, hstale] at hfresh
    obtain ⟨hcurrent, hleads, htarget⟩ := hfresh
    refine ⟨⟨h.inTable_iff.mpr ⟨_, by rw [hsplit]; simp⟩, hmatch, hcurrent, hleads⟩, ?_⟩
    rintro ⟨hcname, other, ⟨behind, hother⟩, hback⟩
    rw [hbucket hmatch] at hother
    have hsame : other ++ crecp :: behind = front ++ crecp :: back :=
      (hother.unique hchained).trans hsplit
    have hnodup := h.nodup (hashBucket env s.hashSize name)
    rw [hsplit] at hnodup
    rw [← hsame] at hnodup
    have hother : crecp ∉ other := fun hmem ↦
      (List.nodup_append.mp hnodup).2.2 crecp hmem crecp List.mem_cons_self rfl
    have hbehind := (List.nodup_cons.mp (List.nodup_append.mp hnodup).2.1).1
    obtain ⟨rfl, -⟩ := (List.append_cons_inj_of_notMem hother hbehind).mp hsame
    exact htarget ⟨hcname, hback⟩
  · rintro ⟨⟨htable, hmatch, hcurrent, hleads⟩, htarget⟩
    have hmem := h.mem_chain_of_matches (h.inTable_iff.mp htable) hmatch
    obtain ⟨front, back, hsplit⟩ := List.append_of_mem hmem
    refine ⟨⟨front, back, hsplit, ?_⟩, hmatch⟩
    rw [List.nil_append, hstale]
    refine ⟨hcurrent, hleads, fun ⟨hcname, hback⟩ ↦ htarget ⟨hcname, front, ⟨back, ?_⟩, hback⟩⟩
    rw [hbucket hmatch, ← hsplit]
    exact hchained

/-- Whatever was asked before, feeding the answers to a question about a name back gives every entry
for it once, and the same holds for a question about an address. -/
theorem lookups_enumerate {session : Session} (hreach : CacheReachable env session) (now : ℤ)
    (prot : Flags) :
    (∀ name, Enumerates session.cache (fun s crecp ↦
      cacheFindByName env s (some crecp) name now prot)
      (cacheFindByName env session.cache none name now prot)
      (ForwardEntry env session.cache name now prot)) ∧
    ∀ addr, Enumerates session.cache (fun s crecp ↦ cacheFindByAddr s (some crecp) addr now prot)
      (cacheFindByAddr session.cache none addr now prot)
      (ReverseEntry session.cache addr now prot) := by
  obtain ⟨g, hsound⟩ := sound_of_reachable hreach
  have hshape := hsound.shape
  refine ⟨fun name ↦ ?_, fun addr ↦ ?_⟩
  · obtain ⟨g', kept, rest, hsteps, hframe, hanswering, ⟨-, -, -, done, -, -, hkept⟩, hown, -⟩ :=
      cacheFindByName_answering
        (sieving_searchKnown hshape hsound.links now (hashBucket env session.cache.hashSize name)
          name prot)
        hshape hsound.settled.loose ⟨[], rfl, Unswept.refl env session.cache, rfl⟩
    have hsurvivors : kept =
      survivors session.cache now [] (g.chain (hashBucket env session.cache.hashSize name)) := by
      rw [← hkept]
      simp [survivors]
    refine hanswering.enumerates hshape hsound.settled hsteps hframe (fun _ ↦ rfl) ?_ ?_ fun crecp ↦
      ?_
    · intro crec htest
      exact inUse_iff.mpr (.inl (of_decide_eq_true htest).1)
    · intro crecp hholds htest
      have hmatch : matchesName (cacheFindByName env session.cache none name now prot).1 name prot
        crecp = true := by
        unfold matchesName Cache.flags Cache.name
        rw [hshape.crec_of_holds hsteps hholds]
        exact htest
      have hmem := (hshape.steps hsteps).mem_chain_of_matches hholds hmatch
      rw [hashSize_cacheFindByName] at hmem
      exact (hown crecp).mp hmem
    · rw [hsurvivors]
      exact forwardEntry_iff hshape name now prot crecp
  · obtain ⟨g', kept, rest, hsteps, hframe, hanswering, hkept, hall⟩ :=
      cacheFindByAddr_answering hshape hsound.settled.loose addr now prot
    refine hanswering.enumerates hshape hsound.settled hsteps hframe (fun crecp ↦ ?_) ?_ ?_
      fun crecp ↦ ?_
    · rw [← accepted_eq_addrTest]
      rfl
    · intro crec htest
      exact inUse_iff.mpr (.inr (of_decide_eq_true htest).1)
    · intro crecp hholds htest
      exact hall crecp hholds (of_decide_eq_true htest).1
    · rw [hkept, ← hshape.inTable_iff]
      constructor
      · rintro ⟨⟨htable, hreverse, hcurrent⟩, htest⟩
        exact ⟨htable, hreverse, decide_eq_true (of_decide_eq_true htest).2, hcurrent⟩
      · rintro ⟨htable, hreverse, hmatch, hcurrent⟩
        exact ⟨⟨htable, hreverse, hcurrent⟩, decide_eq_true ⟨hreverse, of_decide_eq_true hmatch⟩⟩

/-- The cache after a reply with a CNAME and the address that it leads to. -/
def answered :
    Session := Session.calls smallEnv ⟨cacheInit smallEnv default, none, [], false⟩ cnameReply

theorem reachable_answered : CacheReachable smallEnv answered := by
  exact CacheReachable.calls (Reachable.start ⟨default, rfl⟩) cnameReply proper_cnameReply

theorem lookups_enumerate_answered :
    Enumerates answered.cache (fun s crecp ↦ cacheFindByName smallEnv s (some crecp) [98] 1 {.ipv4})
      (cacheFindByName smallEnv answered.cache none [98] 1 {.ipv4})
      (ForwardEntry smallEnv answered.cache [98] 1 {.ipv4}) := by
  have hall := lookups_enumerate reachable_answered 1 {.ipv4}
  exact hall.1 [98]

/-- A CNAME from `1` to the IPv6 address of `q` and an IPv4 address of `q`, which are in one chain,
and a question that moves the IPv6 address in front of the CNAME. -/
def rotatedCalls : List Call :=
  [.startInsert, .insertCname [49] 0 60, .insertTarget (some [113]) (some [1]) 0 10
    {.ipv6, .forward}, .endInsert,
    .startInsert, .insertTarget (some [113]) (some [10, 0, 0, 1]) 0 60 {.ipv4, .forward},
      .endInsert,
    .findByName none [113] 1 {.ipv4, .ipv6}]

def rotated :
    Session := Session.calls smallEnv ⟨cacheInit smallEnv default, none, [], false⟩ rotatedCalls

theorem reachable_rotated : CacheReachable smallEnv rotated := by
  refine CacheReachable.calls (Reachable.start ⟨default, rfl⟩) rotatedCalls fun call hcall ↦ ?_
  simp only [rotatedCalls, List.mem_cons, List.not_mem_nil, or_false] at hcall
  rcases hcall with rfl | rfl | rfl | rfl | rfl | rfl | rfl | rfl
  · trivial
  · trivial
  · exact ⟨by decide, by decide⟩
  · trivial
  · trivial
  · exact ⟨by decide, by decide⟩
  · trivial
  · trivial

theorem currentForward_rotated : CurrentForward rotated.cache [49] 20 {.cname} 0 where
  table := ⟨62, by decide +kernel, [1, 2, 0],
    ⟨by decide +kernel, by decide +kernel, by decide +kernel, (by
      decide +kernel : _ = none)⟩, by simp⟩
  question := by decide +kernel
  current := by decide +kernel
  leads := by decide +kernel

/-- When the IPv6 address has expired, the CNAME is not found, although it is current. -/
theorem not_enumerates_rotated :
    CacheReachable smallEnv rotated ∧
      ¬ Enumerates rotated.cache
      (fun s crecp ↦ cacheFindByName smallEnv s (some crecp) [49] 20 {.cname})
        (cacheFindByName smallEnv rotated.cache none [49] 20 {.cname})
        (CurrentForward rotated.cache [49] 20 {.cname}) :=
  ⟨reachable_rotated, fun h ↦ h.eq_nil (by decide +kernel) 0 currentForward_rotated⟩

end CrossBreeder.Dnsmasq
