import CrossBreeder.Dnsmasq.NameSearch
import CrossBreeder.Foundation.Relinking

/-!
# Lookups while hosts files are read

While hosts files are read there are no records of the pool in the table. A search for a name then
links its answers one behind the other, with the front of the LRU list behind the last one, and
leaves everything else but the order of the chain as it is (`cacheFindByName_local`).
-/

namespace CrossBreeder.Dnsmasq

open Foundation

variable {env : Env}

/-- A search does not take the record out of its chain. -/
def current (s : Cache) (now : ℤ) (crecp : Addr) : Bool :=
  isExpired s now crecp = false ∧ isOutdatedCnamePointer s crecp = false

def LocalTable (s : Cache) (g : Ghost) :
    Prop := ∀ crecp, g.Holds crecp → Meets (s.flags crecp) localFlags

/-- The loop of `cache_find_by_name` has come to some records of a chain outside the pool. -/
structure LocalSearch (name : List UInt8) (now : ℤ) (prot : Flags) (s₀ : Cache) (chain : List Addr)
    (s : Cache) (answers : Answers) (kept todo : List Addr) : Prop where
  rest : s = { s₀ with hash := s.hash, next := s.next }
  isLocal : ∀ crecp ∈ todo, Meets (s₀.flags crecp) localFlags
  seen : kept ++ todo.filter (current s₀ now) = chain.filter (current s₀ now)
  chainp : answers.chainp = (kept.filter (localAnswer (nameTest name prot) s₀)).getLast?
  next : ∀ crecp, crecp ∉ kept.filter (localAnswer (nameTest name prot) s₀) →
    s.next crecp = s₀.next crecp

theorem promote_local {s : Cache} {answers : Answers} {crecp : Addr}
    (hlocal : Meets (s.flags crecp) localFlags) : promote s answers crecp =
      ({ s with next := (answers.chainp.elim s.next fun last ↦
    Function.update s.next last (some crecp)) },
        ⟨(answers.chainp.elim (some crecp) fun _ ↦ answers.ans), some crecp⟩) := by
  unfold promote
  rw [if_pos hlocal]
  unfold Answers.put
  cases answers.chainp <;> rfl

theorem sieving_localSearch (name : List UInt8) (now : ℤ) (prot : Flags) (s₀ : Cache)
    (chain : List Addr) : Sieving name now prot (LocalSearch name now prot s₀ chain) := by
  have hcrec : ∀ {s : Cache} {answers : Answers} {kept todo : List Addr},
      LocalSearch name now prot s₀ chain s answers kept todo → s.crec = s₀.crec := by
    intro s answers kept todo h
    rw [h.rest]
  have hcurrent : ∀ {s : Cache} {answers : Answers} {kept todo : List Addr},
      LocalSearch name now prot s₀ chain s answers kept todo →
        ∀ crecp, current s now crecp = current s₀ now crecp := by
    intro s answers kept todo h crecp
    unfold current isExpired isOutdatedCnamePointer Cache.flags
    rw [hcrec h]
  refine ⟨?_, ?_, ?_, ?_⟩
  · rintro s answers kept todo hash h
    refine ⟨?_, h.isLocal, h.seen, h.chainp, h.next⟩
    rw [h.rest]
  · intro s answers kept todo crecp h hexpired houtdated hmatch
    have hlive : current s₀ now crecp = true := by
      rw [← hcurrent h]
      exact decide_eq_true ⟨hexpired, houtdated⟩
    have hlocal : Meets (s₀.flags crecp) localFlags := h.isLocal crecp List.mem_cons_self
    have hflags : s.flags crecp = s₀.flags crecp := by
      unfold Cache.flags
      rw [hcrec h]
    have htest : localAnswer (nameTest name prot) s₀ crecp = true := by
      refine localAnswer_eq_true.mpr ⟨hlocal, ?_⟩
      rw [← hcrec h]
      exact hmatch
    have hfilter : (kept ++ [crecp]).filter (localAnswer (nameTest name prot) s₀) =
        kept.filter (localAnswer (nameTest name prot) s₀) ++ [crecp] := by
      rw [List.filter_append, List.filter_singleton, htest]
      rfl
    rw [promote_local (by rw [hflags]; exact hlocal)]
    refine ⟨?_, fun later hlater ↦ h.isLocal later (List.mem_cons_of_mem _ hlater), ?_, ?_, ?_⟩
    · rw [h.rest]
    · rw [← h.seen, List.filter_cons_of_pos hlive]
      simp
    · rw [hfilter]
      simp
    · intro record hrecord
      rw [hfilter, List.mem_append, not_or] at hrecord
      rw [← h.next record hrecord.1]
      cases hchainp : answers.chainp with
      | none => rfl
      | some last =>
        refine Function.update_of_ne ?_ _ _
        rintro rfl
        exact hrecord.1 (List.mem_of_getLast? (h.chainp.symm.trans hchainp))
  · intro s answers kept todo crecp h hexpired houtdated hmatch
    have hlive : current s₀ now crecp = true := by
      rw [← hcurrent h]
      exact decide_eq_true ⟨hexpired, houtdated⟩
    have htest : localAnswer (nameTest name prot) s₀ crecp = false := by
      rw [← Bool.not_eq_true]
      intro htest
      have htrue := (localAnswer_eq_true.mp htest).2
      rw [← hcrec h] at htrue
      exact absurd (hmatch.symm.trans htrue) (by decide)
    have hfilter : (kept ++ [crecp]).filter (localAnswer (nameTest name prot) s₀) =
        kept.filter (localAnswer (nameTest name prot) s₀) := by
      rw [List.filter_append, List.filter_singleton, htest]
      simp
    refine ⟨h.rest, fun later hlater ↦ h.isLocal later (List.mem_cons_of_mem _ hlater), ?_, ?_, ?_⟩
    · rw [← h.seen, List.filter_cons_of_pos hlive]
      simp
    · rw [hfilter]
      exact h.chainp
    · rw [hfilter]
      exact h.next
  · intro s answers kept todo crecp up following h hdead
    have hgone : ¬ current s₀ now crecp = true := by
      rw [← hcurrent h]
      exact fun hlive ↦ hdead (of_decide_eq_true hlive)
    have hlocal : Meets ((s.setLink up following).flags crecp) localFlags := by
      have hflags : (s.setLink up following).flags crecp = s₀.flags crecp :=
        congrArg Crec.flags (congrFun (hcrec h) crecp)
      rw [hflags]
      exact h.isLocal crecp List.mem_cons_self
    have hsame : releaseRecord (s.setLink up following) crecp = s.setLink up following := by
      unfold releaseRecord
      rw [if_pos hlocal]
    rw [hsame]
    refine ⟨?_, fun later hlater ↦ h.isLocal later (List.mem_cons_of_mem _ hlater), ?_,
      h.chainp, h.next⟩
    · unfold Cache.setLink
      rw [h.rest]
    · rw [← h.seen, List.filter_cons_of_neg hgone]

def answersIn (s : Cache) (name : List UInt8) (now : ℤ) (prot : Flags) (chain : List Addr) :
    List Addr :=
  (chain.filter (current s now)).filter (matchesName s name prot)

structure LocalFound (env : Env) (s : Cache) (g : Ghost) (now : ℤ) (answers : List Addr)
    (found : Cache × Option Addr) (g' : Ghost) : Prop where
  steps : Steps env Plain (s, g) (found.1, g')
  frame : Frame env g g'
  rest : found.1 = { s with hash := found.1.hash, next := relink s.next answers s.cacheHead }
  answer : found.2 = answers.head?
  holds : ∀ crecp, g'.Holds crecp → g.Holds crecp
  stays : ∀ crecp, g.Holds crecp → current s now crecp = true → g'.Holds crecp

theorem cacheFindByName_local {s : Cache} {g : Ghost} (hshape : Shape env s g)
    (hloose : g.loose = []) (hunhashed : ∀ crecp ∈ g.unhashed, env.cachesize ≤ crecp)
    (hlocal : LocalTable s g) (name : List UInt8) (now : ℤ) (prot : Flags) :
    ∃ g', LocalFound env s g now
      (answersIn s name now prot (g.chain (hashBucket env s.hashSize name)))
      (cacheFindByName env s none name now prot) g' := by
  obtain ⟨chain, hchain⟩ : ∃ chain, chain = g.chain (hashBucket env s.hashSize name) := ⟨_, rfl⟩
  rw [← hchain]
  have hisLocal : ∀ crecp ∈ chain, Meets (s.flags crecp) localFlags := by
    rw [hchain]
    exact fun crecp hmem ↦ hlocal crecp ⟨_, hmem⟩
  obtain ⟨g', kept, rest, hsteps, hframe, hanswering, ⟨t, answers, hresult, hsearch⟩,
    hown, hothers⟩ :=
    cacheFindByName_answering (sieving_localSearch name now prot s chain) hshape hloose
      (by rw [← hchain]; exact ⟨rfl, hisLocal, rfl, rfl, fun _ _ ↦ rfl⟩)
  have hkept : kept = chain.filter (current s now) := by
    simpa using hsearch.seen
  obtain ⟨found, hfound⟩ : ∃ found, found = cacheFindByName env s none name now prot := ⟨_, rfl⟩
  have hsize : found.1.hashSize = s.hashSize := by
    rw [hfound]
    exact hashSize_cacheFindByName env s none name now prot
  rw [← hfound] at hsteps hanswering hresult ⊢
  have hshape' : Shape env found.1 g' := hshape.steps hsteps
  have hrest : found.1 = { s with hash := found.1.hash, next := found.1.next } := by
    rw [hresult]
    unfold Answers.put
    rw [hsearch.rest]
    cases answers.chainp <;> rfl
  have hcrec : found.1.crec = s.crec := by rw [hrest]
  have hhead : found.1.cacheHead = s.cacheHead := by rw [hrest]
  -- all that is kept is outside the pool
  have hlocals : kept.filter (localAnswer (nameTest name prot) found.1) =
      answersIn s name now prot chain := by
    unfold answersIn
    rw [← hkept]
    refine List.filter_congr fun crecp hmem ↦ ?_
    have hisLocal' := hisLocal crecp (List.mem_filter.mp (hkept ▸ hmem)).1
    rw [Bool.eq_iff_iff, localAnswer_eq_true]
    unfold Cache.flags
    rw [hcrec]
    exact ⟨fun h ↦ h.2, fun h ↦ ⟨hisLocal', h⟩⟩
  have hpool : kept.filter (poolAnswer (nameTest name prot) found.1) = [] := by
    refine List.filter_eq_nil_iff.mpr fun crecp hmem hpool ↦ ?_
    have hisLocal' := hisLocal crecp (List.mem_filter.mp (hkept ▸ hmem)).1
    refine (poolAnswer_eq_true.mp hpool).1 ?_
    unfold Cache.flags
    rw [hcrec]
    exact hisLocal'
  have hlru : g'.lru = rest := by
    rw [hanswering.lru, hpool]
    rfl
  have hlist : answerList (nameTest name prot) found.1 kept rest =
    answersIn s name now prot chain ++ rest := by
    unfold answerList
    rw [hlocals, hpool]
    rfl
  have hnext : found.1.next = relink s.next (answersIn s name now prot chain) s.cacheHead := by
    refine eq_relink ?_ ?_ fun crecp hnot ↦ ?_
    · rw [← hlocals]
      exact hanswering.nodup.filter _
    · have hlinked := hanswering.linked
      rw [hlist] at hlinked
      have hfirst := (linked_append.mp hlinked).1
      rw [Option.or_none, ← hlru, ← hshape'.lru.head_eq, hhead] at hfirst
      exact hfirst
    · have hother : crecp ∉ kept.filter (localAnswer (nameTest name prot) s) := by
        have hsame : kept.filter (localAnswer (nameTest name prot) found.1) =
            kept.filter (localAnswer (nameTest name prot) s) :=
          filter_localAnswer_congr fun record _ ↦ congrFun hcrec record
        rw [← hsame, hlocals]
        exact hnot
      rw [← hsearch.next crecp hother, hresult]
      unfold Answers.put
      cases hchainp : answers.chainp with
      | none => rfl
      | some last =>
        refine Function.update_of_ne ?_ _ _
        rintro rfl
        exact hother (List.mem_of_getLast? (hsearch.chainp.symm.trans hchainp))
  refine ⟨g', hsteps, hframe, hrest.trans (by rw [← hnext]), ?_, ?_, ?_⟩
  · have hnone := hanswering.rest_eq_false hshape'
      (fun crecp hmem ↦ (hframe.unhashed crecp hmem).elim (hunhashed crecp) id)
      (fun crec htest ↦ inUse_iff.mpr (.inl (of_decide_eq_true htest).1))
        fun crecp hholds htest ↦ by
        have hmem := hshape'.mem_chain_of_matches hholds htest
        rw [hsize] at hmem
        exact (hown crecp).mp hmem
    rw [hanswering.answer, hlist]
    cases hanswers : answersIn s name now prot chain with
    | nil =>
      cases rest with
      | nil => rfl
      | cons crecp rest => simp [acceptAnswer, Option.filter, hnone crecp List.mem_cons_self]
    | cons crecp behind =>
      have hmem : crecp ∈ kept.filter (localAnswer (nameTest name prot) found.1) := by
        rw [hlocals, hanswers]
        exact List.mem_cons_self
      have htest := (localAnswer_eq_true.mp (List.mem_filter.mp hmem).2).2
      simp [acceptAnswer, Option.filter, htest]
  · rintro crecp ⟨j, hj⟩
    by_cases hji : j = hashBucket env s.hashSize name
    · rw [hji, hown crecp, hkept, hchain] at hj
      exact ⟨_, (List.mem_filter.mp hj).1⟩
    · rw [hothers j hji] at hj
      exact ⟨j, hj⟩
  · rintro crecp ⟨j, hj⟩ hlive
    by_cases hji : j = hashBucket env s.hashSize name
    · refine ⟨j, ?_⟩
      rw [hji, hown crecp, hkept, hchain, ← hji]
      exact List.mem_filter.mpr ⟨hj, hlive⟩
    · exact ⟨j, by rw [hothers j hji]; exact hj⟩

end CrossBreeder.Dnsmasq
