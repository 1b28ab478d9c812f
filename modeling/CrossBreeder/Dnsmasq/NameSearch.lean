import CrossBreeder.Dnsmasq.LookupAnswers

/-!
# The search for a name

What a search leaves behind: the answers outside the pool are linked one behind the other, with the
front of the LRU list at the end, and if the chain has a match of the pool there is one there.
-/

namespace CrossBreeder.Dnsmasq

open Foundation

variable {env : Env}

/-! ### The answers -/

def PoolMatch (s : Cache) (name : List UInt8) (prot : Flags) (crecp : Addr) : Prop :=
  ¬ Meets (s.flags crecp) localFlags ∧ matchesName s name prot crecp = true

/-- The record is a match outside the pool. -/
def LocalMatch (s : Cache) (name : List UInt8) (prot : Flags) (crecp : Addr) : Prop :=
  Meets (s.flags crecp) localFlags ∧ matchesName s name prot crecp = true

theorem PoolMatch.congr {s s' : Cache} {name : List UInt8} {prot : Flags} {crecp : Addr}
    (hcrec : s'.crec crecp = s.crec crecp) :
    PoolMatch s' name prot crecp ↔ PoolMatch s name prot crecp := by
  unfold PoolMatch matchesName Cache.flags Cache.name
  rw [hcrec]

/-- The first answer to a search and those behind it: the matches outside the pool are linked one
behind the other, with the front of the LRU list at the end, and that is a match if there is one in
the pool. -/
structure Answered (name : List UInt8) (prot : Flags) (s : Cache) (g : Ghost) (answer : Option Addr)
    (locals : List Addr) : Prop where
  first : answer = acceptAnswer (locals.head?.or s.cacheHead) (matchesName s name prot)
  linked : Linked s.next locals s.cacheHead
  mem : ∀ crecp, crecp ∈ locals ↔ g.Holds crecp ∧ LocalMatch s name prot crecp
  nodup : locals.Nodup
  front : ∀ crecp, g.Holds crecp → PoolMatch s name prot crecp →
    ∃ head, g.Holds head ∧ s.cacheHead = some head ∧ PoolMatch s name prot head

theorem Shape.mem_chain_of_matches {s : Cache} {g : Ghost} (h : Shape env s g) {name : List UInt8}
    {prot : Flags} {crecp : Addr} (hmem : g.Holds crecp)
    (hmatch : matchesName s name prot crecp = true) :
    crecp ∈ g.chain (hashBucket env s.hashSize name) := by
  obtain ⟨i, hi⟩ := hmem
  have hequal : hostnameIsequal (s.name crecp) name = true := by
    exact (of_decide_eq_true hmatch).2.2
  rw [← hashBucket_congr env s.hashSize hequal, (h.member i crecp hi).bucket]
  exact hi

theorem cacheFindByName_spec {s : Cache} {g : Ghost} (hshape : Shape env s g)
    (hloose : g.loose = []) (name : List UInt8) (now : ℤ) (prot : Flags) :
    ∃ g' locals, Steps env Plain (s, g) ((cacheFindByName env s none name now prot).1, g') ∧
      Swept env g g' ∧ Answered name prot (cacheFindByName env s none name now prot).1 g'
        (cacheFindByName env s none name now prot).2 locals := by
  -- every record that is kept was in the chain of the name
  have hsieve := @sieving_of_contents now
    (fun _ kept todo ↦ ∀ record ∈ kept ++ todo, record ∈ g.chain (hashBucket env s.hashSize name))
    (fun h _ _ ↦ h)
    (fun {_ kept todo crecp} h _ _ record hrecord ↦ h record (by simpa using hrecord))
    (fun {_ kept todo crecp} _ _ h _ record hrecord ↦ by
      refine h record ?_
      simp only [List.mem_append, List.mem_cons] at hrecord ⊢
      grind) name prot
  obtain ⟨g', kept, rest, hsteps, hframe, hanswering, ⟨-, -, -, hknown⟩, hown, hothers⟩ :=
    cacheFindByName_answering hsieve hshape hloose (by simp)
  have hsize := hashSize_cacheFindByName env s none name now prot
  generalize cacheFindByName env s none name now prot = found at hsteps hanswering hsize ⊢
  obtain ⟨t, answer⟩ := found
  have hshape' : Shape env t g' := hshape.steps hsteps
  have hmatches : ∀ {crecp : Addr}, g'.Holds crecp → matchesName t name prot crecp = true →
    crecp ∈ kept := by
    intro crecp hmem hmatch
    rw [← hown crecp, ← hsize]
    exact hshape'.mem_chain_of_matches hmem hmatch
  have hlinked := linked_append.mp hanswering.linked
  have hhead : t.cacheHead =
    ((kept.filter (poolAnswer (nameTest name prot) t)).reverse ++ rest).head? := by
    rw [hshape'.lru.head_eq, hanswering.lru]
  refine ⟨g', kept.filter (localAnswer (nameTest name prot) t), hsteps, ⟨hframe, ?_⟩, ?_, ?_, ?_,
    hanswering.nodup.filter _, ?_⟩
  · rintro crecp ⟨j, hj⟩
    by_cases hji : j = hashBucket env s.hashSize name
    · rw [hji, hown crecp] at hj
      exact ⟨_, hknown crecp (by simpa using hj)⟩
    · rw [hothers j hji] at hj
      exact ⟨j, hj⟩
  · rw [hanswering.answer, answerList, List.head?_append, ← hhead]
    rfl
  · rw [hhead]
    simpa using hlinked.1
  · intro crecp
    rw [List.mem_filter, localAnswer_eq_true]
    constructor
    · rintro ⟨hmem, hlocal, hmatch⟩
      exact ⟨⟨_, (hown crecp).mpr hmem⟩, hlocal, hmatch⟩
    · rintro ⟨hmem, hlocal, hmatch⟩
      exact ⟨hmatches hmem hmatch, hlocal, hmatch⟩
  · intro crecp hmem hpool
    have hfound : crecp ∈ kept.filter (poolAnswer (nameTest name prot) t) :=
      List.mem_filter.mpr ⟨hmatches hmem hpool.2, poolAnswer_eq_true.mpr hpool⟩
    obtain ⟨head, hfirst⟩ :
      ∃ head, (kept.filter (poolAnswer (nameTest name prot) t)).reverse.head? = some head :=
      Option.isSome_iff_exists.mp
        (List.isSome_head?.mpr (List.ne_nil_of_mem (List.mem_reverse.mpr hfound)))
    have hin := List.mem_filter.mp (List.mem_reverse.mp (List.mem_of_head? hfirst))
    refine ⟨head, ⟨_, (hown head).mpr hin.1⟩, ?_, poolAnswer_eq_true.mp hin.2⟩
    rw [hhead, List.head?_append, hfirst]
    rfl

theorem cacheFindByName_sweeps (s : Cache) (crecp : Option Addr) (name : List UInt8) (now : ℤ)
    (prot : Flags) : Sweeps env s (cacheFindByName env s crecp name now prot).1 := by
  intro g hshape hloose
  cases crecp with
  | none =>
    obtain ⟨g', _, hsteps, hswept, -⟩ := cacheFindByName_spec hshape hloose name now prot
    exact ⟨g', hsteps, hswept⟩
  | some crecp => exact ⟨g, Steps.refl _, Swept.refl g⟩

theorem cacheFindByName_tidies (s : Cache) (crecp : Option Addr) (name : List UInt8) (now : ℤ)
    (prot : Flags) : Tidies env s (cacheFindByName env s crecp name now prot).1 :=
  (cacheFindByName_sweeps s crecp name now prot).tidies

end CrossBreeder.Dnsmasq
