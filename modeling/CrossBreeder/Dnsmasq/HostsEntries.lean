import CrossBreeder.Dnsmasq.HostsReading
import CrossBreeder.Dnsmasq.LocalLookups
import CrossBreeder.Foundation.GrowingSet

/-!
# Entries of hosts files

What reading a name with its address does to the table (`ReadingTable.addEntry`): nothing if there
is no memory, or if the name is found to have the address (`Noticed`), and otherwise a record is
added, which is a reverse entry unless the chain of the address leads to a record with it
(`ChainKnows`).
-/

namespace CrossBreeder.Dnsmasq

open Foundation

variable {env : Env}

/-! ### The chains of addresses -/

/-- The record has the address, as `add_hosts_entry` compares them. -/
def HasAddr (s : Cache) (flags : Flags) (addr : List UInt8) (lookup : Addr) : Prop :=
  Meets (s.flags lookup ∩ flags) {.ipv4, .ipv6} ∧
    sameAddr addr.length (s.crec lookup).addr addr = true

variable {s : Cache}

theorem revhashFind_isSome (flags : Flags) (addr : List UInt8) (walked : List Addr) :
    ∀ {fuel : ℕ}, Linked s.next walked none → walked.length < fuel →
      ((revhashFind s flags addr fuel walked.head?).isSome ↔
      ∃ lookup ∈ walked, HasAddr s flags addr lookup) := by
  induction walked with
  | nil =>
    intro fuel _ hfuel
    obtain ⟨fuel, rfl⟩ : ∃ k, fuel = k + 1 := ⟨fuel - 1, by simp at hfuel; omega⟩
    simp [revhashFind]
  | cons lookup walked ih =>
    intro fuel hlinked hfuel
    obtain ⟨fuel, rfl⟩ : ∃ k, fuel = k + 1 := ⟨fuel - 1, by simp at hfuel; omega⟩
    have hrest := ih hlinked.2 (show walked.length < fuel by simpa using hfuel)
    have hnext : s.next lookup = walked.head? := hlinked.1.trans (Option.or_none ..)
    simp only [List.head?_cons, revhashFind, hnext, List.exists_mem_cons_iff]
    split_ifs with hhas
    · exact ⟨fun _ ↦ .inl hhas, fun _ ↦ rfl⟩
    · rw [hrest]
      exact ⟨.inr, fun h ↦ h.resolve_left hhas⟩

theorem length_lt_walkFuel {live : Finset Addr} (hsub : live ⊆ s.live) {walked : List Addr}
    (hlinked : Linked s.next walked none) (hmem : ∀ crecp ∈ walked, crecp ∈ live) :
    walked.length < s.walkFuel := by
  have hcard : walked.toFinset ⊆ s.live :=
    fun crecp hcrecp ↦ hsub (hmem crecp (List.mem_toFinset.mp hcrecp))
  have hle := Finset.card_le_card hcard
  rw [List.toFinset_card_of_nodup hlinked.nodup] at hle
  exact Nat.lt_succ_of_le hle

/-! ### The addresses of the table -/

/-- The address records of hosts files and host records that are in the table, with their contents.
-/
def hostsAddresses (s : Cache) : Set (Addr × Crec) :=
  {entry | InTable s entry.1 ∧ s.crec entry.1 = entry.2 ∧ .hosts ∈ entry.2.flags ∧
    Meets entry.2.flags {.ipv4, .ipv6}}

structure MadeFor (entry : HostsEntry) (crec : Crec) : Prop where
  name : crec.name = entry.name
  addr : crec.addr = entry.addr
  flags : crec.flags = entry.flags ∨ crec.flags = entry.flags.erase .reverse

theorem HostsEntry.flags_inter (entry : HostsEntry) :
    entry.flags ∩ {.ipv4, .ipv6} = entry.prot := by
  unfold HostsEntry.flags HostsEntry.prot
  cases entry.v6 <;> cases entry.config <;> decide

namespace MadeFor

variable {entry : HostsEntry} {crec : Crec}

theorem mem_flags (h : MadeFor entry crec) :
    .hosts ∈ crec.flags ∧ .immortal ∈ crec.flags ∧ .forward ∈ crec.flags ∧
    .cname ∉ crec.flags ∧ crec.flags ∩ localFlags = {.hosts} ∧ crec.flags ∩
      {.ipv4, .ipv6} = entry.prot := by
  obtain ⟨-, -, hflags | hflags⟩ := h
  all_goals
    rw [hflags]
    unfold HostsEntry.flags HostsEntry.prot
    cases entry.v6 <;> cases entry.config <;> decide

theorem isLocal (h : MadeFor entry crec) : Meets crec.flags localFlags :=
  meets_localFlags.mpr (.inl h.mem_flags.1)

theorem typed (h : MadeFor entry crec) : Meets crec.flags {.ipv4, .ipv6} := by
  unfold Meets
  rw [h.mem_flags.2.2.2.2.2]
  unfold HostsEntry.prot
  split_ifs <;> exact Finset.singleton_nonempty _

theorem current_eq_true (h : MadeFor entry crec) {crecp : Addr} (hcrec : s.crec crecp = crec)
    (now : ℤ) : current s now crecp = true := by
  have hflags : s.flags crecp = crec.flags := congrArg Crec.flags hcrec
  refine decide_eq_true ⟨?_, ?_⟩
  · unfold isExpired
    rw [hflags, if_pos h.mem_flags.2.1]
  · unfold isOutdatedCnamePointer
    rw [hflags, if_pos h.mem_flags.2.2.2.1]

end MadeFor

variable {g : Ghost}

theorem mem_hostsAddresses (h : Shape env s g) {p : Addr × Crec} :
    p ∈ hostsAddresses s ↔ g.Holds p.1 ∧ s.crec p.1 = p.2 ∧ .hosts ∈ p.2.flags ∧ Meets p.2.flags
      {.ipv4, .ipv6} := by
  rw [← h.inTable_iff]
  rfl

structure ReadingTable (env : Env) (s : Cache) (rhash : RevHash) (g : Ghost) : Prop where
  sound : Sound env s none g
  isLocal : LocalTable s g
  made : ∀ p ∈ hostsAddresses s, ∃ entry : HostsEntry, entry.Proper ∧ MadeFor entry p.2
  serials : ∀ p ∈ hostsAddresses s, p.2.serial < s.serials
  ends : ∀ j, Ends s.next (· ∈ s.live) (rhash j)

/-! ### What is found about an entry -/

def NameAnswers (env : Env) (s : Cache) (entry : HostsEntry) (answers : List Addr) : Prop :=
  ∃ nodes, Chain s.hash Slot.record (.bucket (hashBucket env s.hashSize entry.name)) nodes none ∧
    answers = answersIn s entry.name 0 entry.prot nodes

def Granted (env : Env) (s : Cache) : Prop := (mallocRecord env s).2.isSome

def Noticed (env : Env) (s : Cache) (entry : HostsEntry) : Prop :=
  ∃ answers first, NameAnswers env s entry answers ∧ answers.head? = some first ∧
    .hosts ∈ s.flags first ∧ sameAddr entry.addr.length (s.crec first).addr entry.addr = true

/-- When the answers have been linked, the chain of the address leads to a record with the address.
-/
def ChainKnows (env : Env) (s : Cache) (rhash : RevHash) (entry : HostsEntry) : Prop :=
  ∃ answers walked, NameAnswers env s entry answers ∧
    Linked (relink s.next answers s.cacheHead) walked none ∧
    walked.head? = rhash (revhash env entry.addr) ∧ ∃ lookup ∈ walked,
      HasAddr s entry.flags entry.addr lookup

variable {answers : List Addr}

theorem NameAnswers.eq (h : Shape env s g) {entry : HostsEntry} :
    NameAnswers env s entry answers ↔
      answers = answersIn s entry.name 0 entry.prot
      (g.chain (hashBucket env s.hashSize entry.name)) := by
  have hchained := h.chained _ (hashBucket_lt env h.table entry.name)
  constructor
  · rintro ⟨nodes, hchain, rfl⟩
    rw [hchain.unique hchained]
  · exact fun hanswers ↦ ⟨_, hchained, hanswers⟩

theorem ReadingTable.ends_relink {rhash : RevHash} (h : ReadingTable env s rhash g)
    {entry : HostsEntry} (hanswers : NameAnswers env s entry answers) (j : ℕ) :
    Ends (relink s.next answers s.cacheHead) (· ∈ s.live) (rhash j) := by
  have hshape := h.sound.shape
  rw [NameAnswers.eq hshape] at hanswers
  have hchain : ∀ record ∈ answers, record ∈ g.chain (hashBucket env s.hashSize entry.name) := by
    rw [hanswers]
    exact fun record hrecord ↦ (List.mem_filter.mp (List.mem_filter.mp hrecord).1).1
  have hnodup : answers.Nodup := by
    rw [hanswers]
    exact ((hshape.nodup _).filter _).filter _
  refine Ends.relink hnodup (fun record hrecord ↦
    (hshape.member _ record (hchain record hrecord)).live) ?_ (h.ends j)
  -- behind the answers there is the LRU list
  have hlru : Linked (relink s.next answers s.cacheHead) g.lru none := by
    refine hshape.lru.forward.congr fun record hrecord ↦ relink_of_notMem fun hmem ↦ ?_
    have hholds := hchain record hmem
    exact absurd (hshape.lt_of_mem_lru hrecord)
      (Nat.not_lt.mpr (hshape.le_of_hashed hholds (h.isLocal record ⟨_, hholds⟩)))
  have hends := Ends.of_linked hlru (fun record hrecord ↦
    hshape.poolLive record (hshape.lt_of_mem_lru hrecord)) .nil
  rw [Option.or_none, ← hshape.lru.head_eq] at hends
  exact hends

/-! ### A record in hand -/

/-- A record was allocated and got its first contents. -/
def heldState (s : Cache) (cache : Addr) (crec : Crec) : Cache :=
  { s with
    live := insert cache s.live
    crec := Function.update s.crec cache crec
    mallocs := s.mallocs + 1
    serials := s.serials + 1 }

theorem newHostsEntry_cases (s : Cache) (rhash : RevHash) (entry : HostsEntry) :
    (¬ Granted env s ∧ newHostsEntry env s rhash entry.name entry.addr entry.flags entry.index =
      (({ s with mallocs := s.mallocs + 1 }, rhash), false)) ∨
    ∃ cache crec, Granted env s ∧ cache ∉ s.live ∧ crec.flags = entry.flags ∧
      crec.name = entry.name ∧ crec.serial = s.serials ∧
      newHostsEntry env s rhash entry.name entry.addr entry.flags entry.index =
        (addHostsEntry env (heldState s cache crec) rhash cache entry.addr entry.index, true) := by
  unfold newHostsEntry Granted mallocRecord
  cases env.malloc s.mallocs with
  | none => exact .inl ⟨by simp, rfl⟩
  | some granted =>
    obtain ⟨cache, contents⟩ := granted
    dsimp only
    split_ifs with hlive
    · exact .inl ⟨by simp, rfl⟩
    · refine .inr ⟨cache, { contents with
        flags := entry.flags, name := entry.name, serial := s.serials }, rfl, hlive,
        rfl, rfl, rfl, ?_⟩
      dsimp only
      rw [modify_renew]
      simp [heldState, Function.update_idem]

variable {g' : Ghost}

variable {t : Cache}

section Held

variable {s : Cache} {rhash : RevHash} {g : Ghost} {cache : Addr} {crec : Crec}

theorem crec_heldState_of_live (hnew : cache ∉ s.live) {record : Addr} (hlive : record ∈ s.live) :
    (heldState s cache crec).crec record = s.crec record :=
  Function.update_of_ne (ne_of_mem_of_not_mem hlive hnew) _ _

theorem steps_heldState (hnew : cache ∉ s.live) :
    Steps env Local (s, g) (heldState s cache crec, { g with held := cache :: g.held }) := by
  have hhold : Step env .write (s, g) (_, _) := .hold hnew crec (s.mallocs + 1)
  obtain ⟨t, ht⟩ : ∃ t, t = { s with
    live := insert cache s.live
    crec := Function.update s.crec cache crec
    mallocs := s.mallocs + 1 } := ⟨_, rfl⟩
  have hwrite : Step env .write (t, { g with held := cache :: g.held }) (_, _) :=
    .writeHeld List.mem_cons_self crec (Nat.le_succ t.serials)
  rw [ht] at hwrite
  have hboth := (Steps.single Local.write hhold).tail Local.write hwrite
  simp only [Function.update_idem] at hboth
  exact hboth

theorem answersIn_heldState (hsound : Sound env s none g) (hlocal : LocalTable s g)
    (hnew : cache ∉ s.live) (name : List UInt8) (now : ℤ) (prot : Flags) (i : ℕ) :
    answersIn (heldState s cache crec) name now prot (g.chain i) = answersIn s name now prot
      (g.chain i) := by
  have hsame : ∀ record ∈ g.chain i, (heldState s cache crec).crec record = s.crec record :=
    fun record hmem ↦
    crec_heldState_of_live hnew (hsound.shape.member i record hmem).live
  have hcurrent : ∀ record ∈ g.chain i, current (heldState s cache crec) now record = current s
    now record := by
    intro record hmem
    have hle := hsound.shape.le_of_hashed hmem (hlocal record ⟨i, hmem⟩)
    have houtdated : isOutdatedCnamePointer (heldState s cache crec) record =
      isOutdatedCnamePointer s record := by
      unfold isOutdatedCnamePointer Cache.flags
      rw [hsame record hmem]
      split_ifs with hcname
      · -- a CNAME outside the pool leads to a record that is in use
        obtain ⟨target, hlink, -, hlive, -⟩ := hsound.links.outside i record hmem hle hcname trivial
        rw [hlink]
        dsimp only
        rw [crec_heldState_of_live hnew hlive]
      · rfl
    unfold current isExpired Cache.flags
    rw [houtdated, hsame record hmem]
  have hmatch : ∀ record ∈ g.chain i,
      matchesName (heldState s cache crec) name prot record = matchesName s name prot record := by
    intro record hmem
    unfold matchesName Cache.flags Cache.name
    rw [hsame record hmem]
  unfold answersIn
  rw [List.filter_filter, List.filter_filter]
  exact List.filter_congr fun record hmem ↦ by rw [hcurrent record hmem, hmatch record hmem]

/-- What the search of `add_hosts_entry` leaves. -/
structure Searched (env : Env) (s : Cache) (rhash : RevHash) (g : Ghost) (entry : HostsEntry)
    (cache : Addr) (crec : Crec) (answers : List Addr) (t : Cache) (g' : Ghost) : Prop where
  steps : Steps env Local (s, g) (t, g')
  frame : LocalFrame env { g with held := cache :: g.held } g'
  crec : t.crec = Function.update s.crec cache crec
  live : t.live = insert cache s.live
  serials : t.serials = s.serials + 1
  next : t.next = relink s.next answers s.cacheHead
  holds : ∀ record, g'.Holds record → g.Holds record
  stays : ∀ p ∈ hostsAddresses s, g'.Holds p.1
  ends : ∀ j, Ends t.next (· ∈ s.live) (rhash j)
  answers : NameAnswers env s entry answers

theorem ReadingTable.search (h : ReadingTable env s rhash g) (hnew : cache ∉ s.live)
    (entry : HostsEntry) (prot : Flags) (hprot : prot = entry.prot) :
    ∃ answers g', Searched env s rhash g entry cache crec answers
        (cacheFindByName env (heldState s cache crec) none entry.name 0 prot).1 g' ∧
      (cacheFindByName env (heldState s cache crec) none entry.name 0 prot).2 = answers.head? := by
  subst hprot
  have hshape := h.sound.shape
  have hsteps :
    Steps env Local (s, g) (heldState s cache crec, { g with held := cache :: g.held }) :=
    steps_heldState hnew
  have hsame : ∀ {record : Addr}, g.Holds record →
    (heldState s cache crec).crec record = s.crec record :=
    fun ⟨i, hi⟩ ↦ crec_heldState_of_live hnew (hshape.member i _ hi).live
  have hlocal : LocalTable (heldState s cache crec) { g with held := cache :: g.held } := by
    intro record hholds
    unfold Cache.flags
    rw [hsame hholds]
    exact h.isLocal record hholds
  obtain ⟨g', hfound⟩ :=
    cacheFindByName_local (hshape.steps hsteps) h.sound.settled.loose h.sound.settled.unhashed
    hlocal entry.name 0 entry.prot
  obtain ⟨answers, hanswers⟩ : ∃ answers, answers =
      answersIn s entry.name 0 entry.prot (g.chain (hashBucket env s.hashSize entry.name)) :=
        ⟨_, rfl⟩
  have hheld : answersIn (heldState s cache crec) entry.name 0 entry.prot
      (g.chain (hashBucket env (heldState s cache crec).hashSize entry.name)) = answers := by
    rw [hanswers]
    exact answersIn_heldState h.sound h.isLocal hnew entry.name 0 entry.prot _
  rw [hheld] at hfound
  obtain ⟨hsteps', hframe', hrest, hanswer, hholds, hstays⟩ := hfound
  refine ⟨answers, g', ⟨hsteps.trans (hsteps'.mono Local.of_plain), hframe'.toLocal, ?_, ?_, ?_, ?_,
    hholds, ?_, ?_, (NameAnswers.eq hshape).mpr hanswers⟩, hanswer⟩
  · rw [hrest]
    rfl
  · rw [hrest]
    rfl
  · rw [hrest]
    rfl
  · rw [hrest]
    rfl
  · intro p hp
    have hmem := ((mem_hostsAddresses hshape).mp hp)
    obtain ⟨other, -, hmade⟩ := h.made p hp
    exact hstays p.1 hmem.1 (hmade.current_eq_true ((hsame hmem.1).trans hmem.2.1) 0)
  · intro j
    have hnext :
      (cacheFindByName env (heldState s cache crec) none entry.name 0 entry.prot).1.next =
        relink s.next answers s.cacheHead := by
      rw [hrest]
      rfl
    rw [hnext]
    exact h.ends_relink ((NameAnswers.eq hshape).mpr hanswers) j

theorem Searched.crec_eq {entry : HostsEntry}
    (h : Searched env s rhash g entry cache crec answers t g') (hnew : cache ∉ s.live)
    {record : Addr} (hlive : record ∈ s.live) : t.crec record = s.crec record := by
  rw [h.crec]
  exact Function.update_of_ne (ne_of_mem_of_not_mem hlive hnew) _ _

theorem Searched.noticed_iff {entry : HostsEntry}
    (h : Searched env s rhash g entry cache crec answers t g') (hshape : Shape env s g)
    (hnew : cache ∉ s.live) :
    ((answers.head?.filter fun lookup ↦ .hosts ∈ t.flags lookup).any fun lookup ↦
      sameAddr entry.addr.length (t.crec lookup).addr entry.addr) = true ↔ Noticed env s entry := by
  have hanswers := (NameAnswers.eq hshape).mp h.answers
  have hsame : ∀ first, answers.head? = some first → t.crec first = s.crec first := by
    intro first hfirst
    have hmem := List.mem_of_head? hfirst
    rw [hanswers] at hmem
    exact h.crec_eq hnew
      (hshape.member _ first (List.mem_filter.mp (List.mem_filter.mp hmem).1).1).live
  constructor
  · intro hany
    cases hfirst : answers.head? with
    | none =>
      rw [hfirst] at hany
      exact absurd hany (by simp)
    | some first =>
      rw [hfirst] at hany
      unfold Cache.flags at hany
      simp only [hsame first hfirst, Option.filter] at hany
      split_ifs at hany with hhosts
      · refine ⟨answers, first, h.answers, hfirst, of_decide_eq_true hhosts, ?_⟩
        rw [← hsame first hfirst]
        exact hany
      · exact absurd hany (by simp)
  · rintro ⟨others, first, hothers, hfirst, hhosts, haddr⟩
    obtain rfl : others = answers := ((NameAnswers.eq hshape).mp hothers).trans hanswers.symm
    rw [hfirst]
    have hflags : .hosts ∈ t.flags first := by
      unfold Cache.flags
      rw [hsame first hfirst]
      exact hhosts
    simp [Option.filter, hflags, hsame first hfirst, haddr]

theorem Searched.chainKnows_iff {entry : HostsEntry}
    (h : Searched env s rhash g entry cache crec answers t g') (hshape : Shape env s g)
    (hnew : cache ∉ s.live) :
    (revhashFind t entry.flags entry.addr t.walkFuel (rhash (revhash env entry.addr))).isSome ↔
      ChainKnows env s rhash entry := by
  obtain ⟨walked, hlinked, hhead, hmem⟩ := (h.ends (revhash env entry.addr)).exists_linked
  have hlt := length_lt_walkFuel (by rw [h.live]; exact Finset.subset_insert _ _) hlinked hmem
  rw [← hhead, revhashFind_isSome entry.flags entry.addr walked hlinked hlt]
  have hhas : ∀ lookup ∈ walked,
      (HasAddr t entry.flags entry.addr lookup ↔ HasAddr s entry.flags entry.addr lookup) := by
    intro lookup hlookup
    unfold HasAddr Cache.flags
    rw [h.crec_eq hnew (hmem lookup hlookup)]
  constructor
  · rintro ⟨lookup, hlookup, haddr⟩
    refine ⟨answers, walked, h.answers, ?_, hhead, lookup, hlookup, (hhas lookup hlookup).mp haddr⟩
    rw [← h.next]
    exact hlinked
  · rintro ⟨others, nodes, hothers, hnodes, hstart, lookup, hlookup, haddr⟩
    obtain rfl : others = answers :=
      ((NameAnswers.eq hshape).mp hothers).trans ((NameAnswers.eq hshape).mp h.answers).symm
    rw [← h.next] at hnodes
    obtain rfl := hnodes.unique hlinked (hstart.trans hhead.symm)
    exact ⟨lookup, hlookup, (hhas lookup hlookup).mpr haddr⟩

theorem hostsAddresses_eq {u : Cache} {g₂ : Ghost} (hshape : Shape env s g)
    (hshape₂ : Shape env u g₂) (hold : ∀ p ∈ hostsAddresses s, g₂.Holds p.1 ∧ u.crec p.1 = p.2)
    (hnew : ∀ record, g₂.Holds record →
      g.Holds record ∧ u.crec record = s.crec record ∨ ¬ Meets (u.flags record) {.ipv4, .ipv6}) :
    hostsAddresses u = hostsAddresses s := by
  ext p
  rw [mem_hostsAddresses hshape₂]
  constructor
  · rintro ⟨hholds, hcrec, hhosts, htyped⟩
    rcases hnew p.1 hholds with ⟨hbefore, hsame⟩ | hother
    · exact (mem_hostsAddresses hshape).mpr ⟨hbefore, hsame.symm.trans hcrec, hhosts, htyped⟩
    · unfold Cache.flags at hother
      rw [hcrec] at hother
      exact absurd htyped hother
  · intro hp
    obtain ⟨-, -, hhosts, htyped⟩ := (mem_hostsAddresses hshape).mp hp
    exact ⟨(hold p hp).1, (hold p hp).2, hhosts, htyped⟩

theorem hostsAddresses_insert {u : Cache} {g₂ : Ghost} {contents : Crec} (hshape : Shape env s g)
    (hshape₂ : Shape env u g₂) (hold : ∀ p ∈ hostsAddresses s, g₂.Holds p.1 ∧ u.crec p.1 = p.2)
    (hnew : ∀ record, g₂.Holds record → record ≠ cache →
      g.Holds record ∧ u.crec record = s.crec record ∨ ¬ Meets (u.flags record) {.ipv4, .ipv6})
    (hcache : g₂.Holds cache ∧ u.crec cache = contents) (hhosts : .hosts ∈ contents.flags)
    (htyped : Meets contents.flags {.ipv4, .ipv6}) :
    hostsAddresses u = insert (cache, contents) (hostsAddresses s) := by
  ext p
  rw [mem_hostsAddresses hshape₂, Set.mem_insert_iff]
  constructor
  · rintro ⟨hholds, hcrec, hhosts, htyped⟩
    by_cases heq : p.1 = cache
    · refine .inl (Prod.ext heq ?_)
      rw [← hcrec, heq]
      exact hcache.2
    · rcases hnew p.1 hholds heq with ⟨hbefore, hsame⟩ | hother
      · exact .inr ((mem_hostsAddresses hshape).mpr ⟨hbefore, hsame.symm.trans hcrec,
          hhosts, htyped⟩)
      · unfold Cache.flags at hother
        rw [hcrec] at hother
        exact absurd htyped hother
  · rintro (rfl | hp)
    · exact ⟨hcache.1, hcache.2, hhosts, htyped⟩
    · obtain ⟨-, -, hhosts, htyped⟩ := (mem_hostsAddresses hshape).mp hp
      exact ⟨(hold p hp).1, (hold p hp).2, hhosts, htyped⟩

theorem Searched.discard {entry : HostsEntry}
    (h : Searched env s rhash g entry cache crec answers t g')
    (hreading : ReadingTable env s rhash g) (hnew : cache ∉ s.live) :
    ∃ g₂, ReadingTable env (freeRecord t cache) rhash g₂ ∧ hostsAddresses
      (freeRecord t cache) = hostsAddresses s := by
  have hshape := hreading.sound.shape
  have hshape' : Shape env t g' := hshape.steps h.steps
  have hheld : g'.held = cache :: g.held := h.frame.held
  have hdiscard : Step env .plain (t, g') (_, _) := .discard (show cache ∈ g'.held by simp [hheld])
  rw [hshape'.filter_held hheld] at hdiscard
  have hsteps := h.steps.tail Local.plain hdiscard
  have hframe : LocalFrame env g { g' with held := g.held } :=
    ⟨h.frame.fresh, h.frame.loose, rfl, h.frame.unhashed⟩
  have hshape₂ := hshape.steps hsteps
  have hcrec : ∀ {record : Addr}, g.Holds record →
    (freeRecord t cache).crec record = s.crec record :=
    fun ⟨i, hi⟩ ↦ h.crec_eq hnew (hshape.member i _ hi).live
  have haddresses : hostsAddresses (freeRecord t cache) = hostsAddresses s :=
    hostsAddresses_eq hshape hshape₂
      (fun p hp ↦ by
        obtain ⟨hholds, hp', -⟩ := (mem_hostsAddresses hshape).mp hp
        exact ⟨h.stays p hp, (hcrec hholds).trans hp'⟩)
      fun record hrecord ↦ .inl ⟨h.holds record hrecord, hcrec (h.holds record hrecord)⟩
  refine ⟨_, ⟨⟨hshape₂, hreading.sound.settled.of_frame hframe, by simp,
    hreading.sound.links.of_local hsteps hshape⟩, ?_, ?_, ?_, ?_⟩, haddresses⟩
  · intro record hrecord
    unfold Cache.flags
    rw [hcrec (h.holds record hrecord)]
    exact hreading.isLocal record (h.holds record hrecord)
  · rw [haddresses]
    exact hreading.made
  · rw [haddresses]
    intro p hp
    show p.2.serial < t.serials
    rw [h.serials]
    exact Nat.lt_succ_of_lt (hreading.serials p hp)
  · intro j
    refine (h.ends j).mono fun record hrecord ↦ ?_
    show record ∈ t.live.erase cache
    rw [h.live, Finset.erase_insert hnew]
    exact hrecord

structure Entered (env : Env) (s : Cache) (rhash : RevHash) (entry : HostsEntry) (cache : Addr)
    (contents : Crec) (t : Cache) (g' : Ghost) (u : Cache) (rhash' : RevHash) : Prop where
  steps : Steps env Local (t, g') (u, g')
  crec : u.crec = Function.update s.crec cache contents
  live : u.live = insert cache s.live
  serials : u.serials = s.serials + 1
  made : MadeFor entry contents
  serial : contents.serial = s.serials
  reverse : .reverse ∈ contents.flags ↔ ¬ ChainKnows env s rhash entry
  rhash : rhash' = if .reverse ∈ contents.flags then
    Function.update rhash (revhash env entry.addr) (some cache)
    else rhash
  ends : ∀ j, Ends u.next (· ∈ u.live) (rhash' j)

theorem Searched.enter {entry : HostsEntry}
    (h : Searched env s rhash g entry cache crec answers t g') (hshape : Shape env s g)
    (hnew : cache ∉ s.live) (hflags : crec.flags = entry.flags) (hname : crec.name = entry.name)
    (hserial : crec.serial = s.serials) : ∃ contents, Entered env s rhash entry cache contents t g'
      ((enterRevhash env t rhash cache entry.addr).1.modify cache fun old ↦
        { old with uid := entry.index, addr := entry.addr })
      (enterRevhash env t rhash cache entry.addr).2 := by
  have hshape' : Shape env t g' := hshape.steps h.steps
  have hheld : cache ∈ g'.held := by simp [h.frame.held]
  have hle := hshape'.le_of_mem_held hheld
  have hspare : cache ∉ g'.spare := fun hspare ↦
    (List.nodup_append.mp hshape'.outsideNodup).2.2 cache hspare cache hheld rfl
  have hown : t.crec cache = crec := by
    rw [h.crec]
    exact Function.update_self ..
  have hownFlags : t.flags cache = entry.flags := by
    unfold Cache.flags
    rw [hown, hflags]
  have hknows := h.chainKnows_iff hshape hnew
  have hreverse : .reverse ∈ entry.flags := by
    unfold HostsEntry.flags
    cases entry.v6 <;> cases entry.config <;> decide
  have hmore : ∀ record, record ∈ s.live → record ∈ t.live := fun record hrecord ↦ by
    rw [h.live]
    exact Finset.mem_insert_of_mem hrecord
  unfold enterRevhash
  dsimp only
  rw [hownFlags]
  cases hfind : revhashFind t entry.flags entry.addr t.walkFuel (rhash (revhash env entry.addr))
    with
  | some lookup =>
    rw [hfind] at hknows
    dsimp only
    refine ⟨{ crec with
      flags := entry.flags.erase .reverse, uid := entry.index, addr := entry.addr }, ?_⟩
    refine ⟨(steps_writeHeld hheld _).trans (steps_writeHeld hheld _), ?_, h.live, h.serials,
      ⟨hname, rfl, .inr rfl⟩, hserial, ?_, by simp, fun j ↦ (h.ends j).mono hmore⟩
    · simp only [Cache.modify, Function.update_self, Function.update_idem, hown, hflags]
      rw [h.crec, Function.update_idem]
    · simp [hknows.mp rfl]
  | none =>
    rw [hfind] at hknows
    have hnot : ¬ ChainKnows env s rhash entry := fun hchain ↦ absurd (hknows.mpr hchain) (by simp)
    refine ⟨{ crec with uid := entry.index, addr := entry.addr }, ?_⟩
    refine ⟨(Steps.single Local.plain (.setNext hle hspare _)).trans (steps_writeHeld hheld _), ?_,
      h.live, h.serials,
      ⟨hname, rfl, .inl hflags⟩, hserial, ?_, by simp [hflags, hreverse], fun j ↦ ?_⟩
    · simp only [Cache.modify, hown]
      rw [h.crec, Function.update_idem]
    · simp [hnot, hflags, hreverse]
    · -- the new record is in front of what was walked through before
      have hends : ∀ i, Ends (Function.update t.next cache (rhash (revhash env entry.addr)))
        (· ∈ t.live) (rhash i) :=
        fun i ↦ ((h.ends i).congr fun record hrecord ↦
          Function.update_of_ne (ne_of_mem_of_not_mem hrecord hnew) _ _).mono hmore
      show Ends (Function.update t.next cache (rhash (revhash env entry.addr))) (· ∈ t.live)
        (Function.update rhash (revhash env entry.addr) (some cache) j)
      by_cases heq : j = revhash env entry.addr
      · rw [heq, Function.update_self]
        refine .cons (by rw [h.live]; exact Finset.mem_insert_self ..) ?_
        rw [Function.update_self]
        exact hends _
      · rw [Function.update_of_ne heq]
        exact hends j

/-- The record goes to the table, with the CNAMEs for it if it is the first of its name. -/
theorem Entered.finish {entry : HostsEntry} {contents : Crec} {t u : Cache}
    {rhash' : RevHash} (h : Entered env s rhash entry cache contents t g' u rhash')
    (hsearched : Searched env s rhash g entry cache crec answers t g')
    (hreading : ReadingTable env s rhash g) (hproper : entry.Proper) (hnew : cache ∉ s.live)
    (known : Bool) : ∃ g₂, ReadingTable env (if known then cacheHash env u cache
        else addHostsCname env (cnameDepth env) cache (cacheHash env u cache)) rhash' g₂ ∧
      hostsAddresses (if known then cacheHash env u cache
        else addHostsCname env (cnameDepth env) cache (cacheHash env u cache)) =
          insert (cache, contents) (hostsAddresses s) := by
  have hshape := hreading.sound.shape
  have hsteps := hsearched.steps.trans h.steps
  have hshape' : Shape env u g' := hshape.steps hsteps
  have hheld : g'.held = cache :: g.held := hsearched.frame.held
  have hle := hshape'.le_of_mem_held (show cache ∈ g'.held by simp [hheld])
  have hmade := h.made.mem_flags
  have hown : u.crec cache = contents := by
    rw [h.crec]
    exact Function.update_self ..
  have hflags : u.flags cache = contents.flags := congrArg Crec.flags hown
  have hsame : ∀ {record : Addr}, g.Holds record → u.crec record = s.crec record := by
    rintro record ⟨i, hi⟩
    rw [h.crec]
    exact Function.update_of_ne (ne_of_mem_of_not_mem (hshape.member i record hi).live hnew) _ _
  obtain ⟨g₁, hsteps₁, hframe₁, hchain₁⟩ := steps_hashHeld hshape' hheld
    (by rw [hflags, inUse_iff]; exact .inl hmade.2.2.1) (by rw [hflags]; exact h.made.isLocal)
    (by rw [hflags]; exact fun hmem ↦ absurd hmem hmade.2.2.2.1)
  have hall := hsteps.trans hsteps₁
  obtain ⟨v, hv⟩ : ∃ v, v = if known then cacheHash env u cache
    else addHostsCname env (cnameDepth env) cache (cacheHash env u cache) := ⟨_, rfl⟩
  rw [← hv]
  -- what is added then are CNAMEs
  obtain ⟨g₂, hgrown⟩ :
    ∃ g₂, GrownBy env (fun new ↦ new.flags = {.forward, .immortal, .namep, .hosts, .cname})
      (cacheHash env u cache, g₁) (v, g₂) := by
    rw [hv]
    split_ifs
    · exact ⟨g₁, GrownBy.refl _⟩
    · have htarget : CnameTarget env {.forward, .immortal, .namep, .hosts, .cname}
        (cacheHash env u cache) g₁
          cache := by
        refine ⟨(hchain₁ cache).mpr (.inr rfl), hle, ?_⟩
        show _ = u.flags cache ∩ localFlags
        rw [hflags, hmade.2.2.2.2.1]
        decide
      obtain ⟨g₂, hgrown⟩ :=
        addCname_grown mallocRecord_spec (by decide) (by decide) (fun ttd ↦ ttd)
        (cnameDepth env) (hshape.steps hall) htarget
      exact ⟨g₂, hgrown.mono fun _ hkind ↦ hkind.1⟩
  have hkeeps : KeepsNext u v := by
    rw [hv]
    split_ifs
    · exact KeepsNext.cacheHash u cache
    · exact (KeepsNext.cacheHash u cache).trans (KeepsNext.addHostsCname _ cache _)
  have hsteps₂ : Steps env Local (s, g) (v, g₂) := hall.trans hgrown.steps
  have hshape₂ : Shape env v g₂ := hshape.steps hsteps₂
  have hframe₂ : LocalFrame env g g₂ := by
    refine LocalFrame.trans ⟨?_, ?_, ?_, ?_⟩ hgrown.frame
    · exact hframe₁.fresh.trans hsearched.frame.fresh
    · exact hframe₁.loose.trans hsearched.frame.loose
    · exact hframe₁.held
    · exact fun record hrecord ↦
        (hframe₁.unhashed record hrecord).elim (hsearched.frame.unhashed record) .inr
  have hkept : ∀ {record : Addr}, g₁.Holds record → g₂.Holds record ∧
    v.crec record = u.crec record :=
    fun hholds ↦ hgrown.hashed _ hholds
  have hcases : ∀ record, g₂.Holds record →
      g.Holds record ∧ v.crec record = s.crec record ∨ record = cache ∨
        v.flags record = {.forward, .immortal, .namep, .hosts, .cname} := by
    intro record hholds
    rcases hgrown.added record hholds with hbefore | hcname
    · rcases (hchain₁ record).mp hbefore with hold | heq
      · have hrecord := hsearched.holds record hold
        exact .inl ⟨hrecord, (hkept hbefore).2.trans (hsame hrecord)⟩
      · exact .inr (.inl heq)
    · exact .inr (.inr hcname)
  have hcache := hkept ((hchain₁ cache).mpr (.inr rfl))
  have haddresses : hostsAddresses v = insert (cache, contents) (hostsAddresses s) := by
    refine hostsAddresses_insert hshape hshape₂ ?_ ?_ ⟨hcache.1, hcache.2.trans hown⟩
      hmade.1 h.made.typed
    · intro p hp
      obtain ⟨hholds, hp', -⟩ := (mem_hostsAddresses hshape).mp hp
      obtain ⟨hin, hcrec⟩ := hkept ((hchain₁ p.1).mpr (.inl (hsearched.stays p hp)))
      exact ⟨hin, hcrec.trans ((hsame hholds).trans hp')⟩
    · intro record hholds hne
      rcases hcases record hholds with hold | heq | hcname
      · exact .inl hold
      · exact absurd heq hne
      · refine .inr ?_
        rw [hcname]
        decide
  refine ⟨g₂, ⟨⟨hshape₂, hreading.sound.settled.of_frame hframe₂, by simp,
    hreading.sound.links.of_local hsteps₂ hshape⟩, ?_, ?_, ?_, fun j ↦ ?_⟩, haddresses⟩
  · intro record hholds
    rcases hcases record hholds with ⟨hrecord, hcrec⟩ | rfl | hcname
    · unfold Cache.flags
      rw [hcrec]
      exact hreading.isLocal record hrecord
    · unfold Cache.flags
      rw [hcache.2, hown]
      exact h.made.isLocal
    · rw [hcname]
      decide
  · rw [haddresses]
    rintro p (rfl | hp)
    · exact ⟨entry, hproper, h.made⟩
    · exact hreading.made p hp
  · have hserials : s.serials + 1 ≤ v.serials := by
      rw [← h.serials]
      exact hkeeps.serials
    rw [haddresses]
    rintro p (rfl | hp)
    · show contents.serial < v.serials
      rw [h.serial]
      exact hserials
    · exact (Nat.lt_succ_of_lt (hreading.serials p hp)).trans_le hserials
  · refine ((h.ends j).mono fun record hrecord ↦ hkeeps.live hrecord).congr fun record _ ↦ ?_
    rw [hkeeps.next]


structure AddsAddress (env : Env) (s : Cache) (rhash : RevHash) (entry : HostsEntry)
    (new : Addr × Crec) (t : Cache) (rhash' : RevHash) : Prop where
  granted : Granted env s
  unnoticed : ¬ Noticed env s entry
  addresses : hostsAddresses t = insert new (hostsAddresses s)
  later : ∀ old ∈ hostsAddresses s, old.2.serial < new.2.serial
  made : MadeFor entry new.2
  reverse : .reverse ∈ new.2.flags ↔ ¬ ChainKnows env s rhash entry
  rhash : rhash' = if .reverse ∈ new.2.flags then
    Function.update rhash (revhash env entry.addr) (some new.1)
    else rhash

/-- What `add_hosts_entry` does to the table of addresses. -/
theorem ReadingTable.addEntry (h : ReadingTable env s rhash g) {entry : HostsEntry}
    (hproper : entry.Proper) {rhash' : RevHash} {added : Bool}
    (hresult : newHostsEntry env s rhash entry.name entry.addr entry.flags entry.index =
      ((t, rhash'), added)) :
    ∃ g', ReadingTable env t rhash' g' ∧
      (hostsAddresses t = hostsAddresses s ∧ (¬ Granted env s ∨ Noticed env s entry) ∧
      rhash' = rhash ∨
        ∃ new, AddsAddress env s rhash entry new t rhash') := by
  have hshape := h.sound.shape
  rcases newHostsEntry_cases s rhash entry with ⟨hgranted, hnone⟩ | ⟨cache, crec, hgranted, hnew,
    hflags, hname, hserial, hsome⟩
  · rw [hnone] at hresult
    obtain ⟨⟨rfl, rfl⟩, -⟩ : ({ s with mallocs := s.mallocs + 1 } = t ∧ rhash = rhash') ∧
      false = added := by
      simpa using hresult
    have hsteps : Steps env Local (s, g) ({ s with mallocs := s.mallocs + 1 }, g) :=
      Steps.single Local.plain (.counters _ _ _ _ (Nat.le_refl s.uid))
    have haddresses : hostsAddresses ({ s with mallocs := s.mallocs + 1 } : Cache) =
      hostsAddresses s := rfl
    refine ⟨g,
      ⟨⟨hshape.steps hsteps, h.sound.settled,
        by simp, h.sound.links.of_local hsteps hshape⟩, h.isLocal, h.made,
      h.serials, h.ends⟩, .inl ⟨haddresses, .inl hgranted, rfl⟩⟩
  · rw [hsome] at hresult
    have hown : (heldState s cache crec).crec cache = crec := Function.update_self ..
    have hownName : (heldState s cache crec).name cache = entry.name := by
      unfold Cache.name
      rw [hown, hname]
    have hprot : (heldState s cache crec).flags cache ∩ {.ipv4, .ipv6} = entry.prot := by
      unfold Cache.flags
      rw [hown, hflags]
      exact entry.flags_inter
    obtain ⟨answers, g', hsearched, hanswer⟩ :=
      @ReadingTable.search env s rhash g cache crec h hnew entry _ hprot
    unfold addHostsEntry at hresult
    rw [hownName] at hresult
    generalize cacheFindByName env (heldState s cache crec) none entry.name 0
      ((heldState s cache crec).flags cache ∩ {.ipv4, .ipv6}) = found at hsearched hanswer hresult
    obtain ⟨found, lookup⟩ := found
    obtain rfl : lookup = answers.head? := hanswer
    have hnoticed := hsearched.noticed_iff hshape hnew
    dsimp only at hsearched hresult hnoticed
    split at hresult
    case isTrue hany =>
      obtain ⟨⟨rfl, rfl⟩, -⟩ : (freeRecord found cache = t ∧ rhash = rhash') ∧ true = added := by
        simpa using hresult
      obtain ⟨g₂, hreading, haddresses⟩ := hsearched.discard h hnew
      exact ⟨g₂, hreading, .inl ⟨haddresses, .inr (hnoticed.mp hany), rfl⟩⟩
    case isFalse hany =>
      obtain ⟨contents, hentered⟩ := hsearched.enter hshape hnew hflags hname hserial
      obtain ⟨g₂, hreading, haddresses⟩ := hentered.finish hsearched h hproper hnew
        (answers.head?.filter fun lookup ↦ .hosts ∈ found.flags lookup).isSome
      simp only [Prod.mk.injEq] at hresult
      obtain ⟨⟨ht, rfl⟩, -⟩ := hresult
      rw [ht] at hreading haddresses
      refine ⟨g₂, hreading, .inr ⟨(cache, contents), hgranted, fun hnot ↦ hany (hnoticed.mpr hnot),
        haddresses, ?_, hentered.made, hentered.reverse, hentered.rhash⟩⟩
      intro old hold
      rw [hentered.serial]
      exact h.serials old hold

end Held

/-! ### The whole reading -/

theorem ReadingTable.rehash {rhash : RevHash} (h : ReadingTable env s rhash g) (size : ℕ) :
    (∃ g', ReadingTable env (rehash env s size) rhash g') ∧ hostsAddresses
      (rehash env s size) = hostsAddresses s := by
  have hshape := h.sound.shape
  obtain ⟨g', hsteps, hframe, hholds, hcrec⟩ := rehash_spec hshape size
  have hkeeps : KeepsNext s (Dnsmasq.rehash env s size) := KeepsNext.rehash s size
  have hlocal := hsteps.mono Local.of_plain
  have hshape' := hshape.steps hsteps
  have haddresses : hostsAddresses (Dnsmasq.rehash env s size) = hostsAddresses s := by
    ext p
    rw [mem_hostsAddresses hshape', mem_hostsAddresses hshape, hholds, hcrec]
  refine ⟨⟨g', ⟨hshape', h.sound.settled.of_frame hframe.toLocal,
    by simp, h.sound.links.of_local hlocal hshape⟩, ?_, ?_, ?_, fun j ↦ ?_⟩, haddresses⟩
  · intro record hrecord
    unfold Cache.flags
    rw [hcrec]
    exact h.isLocal record ((hholds record).mp hrecord)
  · rw [haddresses]
    exact h.made
  · rw [haddresses]
    exact fun p hp ↦ (h.serials p hp).trans_le hkeeps.serials
  · refine ((h.ends j).mono fun record hrecord ↦ hkeeps.live hrecord).congr fun record _ ↦ ?_
    rw [hkeeps.next]

structure ReloadInput.Proper (input : ReloadInput) : Prop where
  addr : ∀ hr ∈ input.hostRecords, ∀ addr ∈ hr.addr, addr.length = 4
  addr6 : ∀ hr ∈ input.hostRecords, ∀ addr ∈ hr.addr6, addr.length = 16
  lines : ∀ file ∈ input.files, ∀ lines ∈ file.2, ∀ line ∈ lines, line.addr.length = if line.v6 then
    16 else 4

variable {input : ReloadInput}

theorem ReloadInput.Proper.entry (h : input.Proper) {entry : HostsEntry}
    (hmem : .add entry ∈ input.steps env) : entry.Proper := by
  rcases List.mem_append.mp hmem with hrecord | hfile
  · simp only [List.mem_flatMap, List.mem_map, ReadStep.add.injEq, exists_eq_right] at hrecord
    obtain ⟨hr, hhr, name, -, hentry⟩ := hrecord
    unfold HostRecord.entries at hentry
    simp only [List.mem_append, List.mem_map, Option.mem_toList] at hentry
    rcases hentry with ⟨addr, haddr, rfl⟩ | ⟨addr, haddr, rfl⟩
    · exact h.addr hr hhr addr haddr
    · exact h.addr6 hr hhr addr haddr
  · obtain ⟨file, hin, hstep⟩ := List.mem_flatMap.mp hfile
    unfold fileSteps at hstep
    cases hlines : file.2 with
    | none =>
      rw [hlines] at hstep
      simp at hstep
    | some lines =>
      rw [hlines] at hstep
      simp only [List.cons_append, List.mem_cons, List.mem_append, List.mem_flatMap, List.mem_map,
        ReadStep.add.injEq,
        reduceCtorEq, List.not_mem_nil, or_false, false_or, exists_eq_right] at hstep
      obtain ⟨line, hline, hentry⟩ := hstep
      obtain ⟨name, -, rfl⟩ := List.mem_map.mp hentry
      exact h.lines file hin lines hlines line hline

/-- What a step does to the table of addresses. -/
theorem reading_step {reading : HostsReading}
    (h : ∃ g, ReadingTable env reading.cache reading.rhash g) (item : ReadStep)
    (hproper : ∀ entry, item = .add entry → entry.Proper) :
    (∃ g, ReadingTable env (reading.step env item).cache (reading.step env item).rhash g) ∧
      (hostsAddresses (reading.step env item).cache = hostsAddresses reading.cache ∧
          (∀ entry, item = .add entry → ¬ Granted env reading.cache ∨
          Noticed env reading.cache entry) ∧ (reading.step env item).rhash = reading.rhash ∨
        ∃ entry new, item = .add entry ∧
          AddsAddress env reading.cache reading.rhash entry new (reading.step env item).cache
            (reading.step env item).rhash) := by
  obtain ⟨g, hreading⟩ := h
  cases item with
  | add entry =>
    cases hresult : newHostsEntry env reading.cache reading.rhash entry.name entry.addr entry.flags
      entry.index with
    | mk state added =>
      obtain ⟨t, rhash'⟩ := state
      have hcache : (reading.step env (.add entry)).cache = t := by
        simp [HostsReading.step, hresult]
      have hrhash : (reading.step env (.add entry)).rhash = rhash' := by
        simp [HostsReading.step, hresult]
      rw [hcache, hrhash]
      obtain ⟨g', hreading', hsame | ⟨new, hadds⟩⟩ := hreading.addEntry (hproper entry rfl) hresult
      · refine ⟨⟨g', hreading'⟩, .inl ⟨hsame.1, ?_, hsame.2.2⟩⟩
        rintro other heq
        cases heq
        exact hsame.2.1
      · exact ⟨⟨g', hreading'⟩, .inr ⟨entry, new, rfl, hadds⟩⟩
  | openFile => exact ⟨⟨g, hreading⟩, .inl ⟨rfl, by simp, rfl⟩⟩
  | missingFile => exact ⟨⟨g, hreading⟩, .inl ⟨rfl, by simp, rfl⟩⟩
  | line =>
    unfold HostsReading.step
    split_ifs
    · exact ⟨(hreading.rehash _).1, .inl ⟨(hreading.rehash _).2, by simp, rfl⟩⟩
    · exact ⟨⟨g, hreading⟩, .inl ⟨rfl, by simp, rfl⟩⟩
  | closeFile => exact ⟨(hreading.rehash _).1, .inl ⟨(hreading.rehash _).2, by simp, rfl⟩⟩

theorem reading_start {cpp : Option Addr} (h : Sound env s cpp g) :
    (∃ g', ReadingTable env (startReading env s).cache (startReading env s).rhash g') ∧
      hostsAddresses (startReading env s).cache = ∅ := by
  obtain ⟨g', hsteps, hframe, hleases⟩ := reloadClear_steps h.shape h.settled.loose
  have hsettled := h.settled.of_frame hframe.toLocal
  have hshape' := h.shape.steps hsteps
  have hnone : hostsAddresses (startReading env s).cache = ∅ := by
    refine Set.eq_empty_of_forall_notMem fun p hp ↦ ?_
    obtain ⟨⟨i, hi⟩, hcrec, hhosts, -⟩ := (mem_hostsAddresses hshape').mp hp
    rw [← hcrec] at hhosts
    exact (hleases i p.1 hi).2 hhosts
  refine ⟨⟨g', ⟨hshape', hsettled,
    by simp, h.links.of_clear hsteps hsettled hleases h.shape⟩, ?_, ?_, ?_, fun _ ↦ .nil⟩, hnone⟩
  · rintro record ⟨i, hi⟩
    exact meets_localFlags.mpr (.inr (hleases i record hi).1)
  · rw [hnone]
    exact fun p hp ↦ absurd hp (Set.notMem_empty p)
  · rw [hnone]
    exact fun p hp ↦ absurd hp (Set.notMem_empty p)

def readingBefore (env : Env) (s : Cache) (front : List ReadStep) : HostsReading :=
  front.foldl (HostsReading.step env) (startReading env s)

/-- What holds in front of every step, and at the end, and what every step does. -/
theorem reading_run {session : Session} (hreach : CacheReachable env session)
    (hproper : input.Proper) :
    AtEach (fun front item ↦
        (∃ g, ReadingTable env (readingBefore env session.cache front).cache
        (readingBefore env session.cache front).rhash g) ∧
          ∀ entry, item = .add entry → entry.Proper) (input.steps env) ∧
      (∃ g, ReadingTable env (readingBefore env session.cache (input.steps env)).cache
        (readingBefore env session.cache (input.steps env)).rhash g) := by
  obtain ⟨g, hsound⟩ := sound_of_reachable hreach
  have hall :=
    @atEach_foldl _ (input.steps env) _ (HostsReading.step env) (startReading env session.cache)
    (fun reading ↦ ∃ g, ReadingTable env reading.cache reading.rhash g)
    (reading_start hsound).1 (fun reading item hitem h ↦ (reading_step h item fun entry heq ↦
      hproper.entry (by rw [← heq]; exact hitem)).1)
  refine ⟨fun front item back hsplit ↦ ⟨hall.1 front item back hsplit, fun entry heq ↦
    @ReloadInput.Proper.entry env _ hproper _ ?_⟩, hall.2⟩
  rw [hsplit, heq]
  simp

theorem reading_growsAlong {session : Session} (hreach : CacheReachable env session)
    (hproper : input.Proper) :
    GrowsAlong (fun p : Addr × Crec ↦ p.2.serial)
    (fun reading : HostsReading ↦ hostsAddresses reading.cache)
      (HostsReading.step env) (startReading env session.cache) (input.steps env) := by
  obtain ⟨g, hsound⟩ := sound_of_reachable hreach
  refine ⟨(reading_start hsound).2, (reading_run hreach hproper).1.mono ?_⟩
  rintro front item ⟨hreading, hentry⟩
  show Grows _ (hostsAddresses (readingBefore env session.cache front).cache)
    (hostsAddresses ((readingBefore env session.cache front).step env item).cache)
  rcases (reading_step hreading item hentry).2 with ⟨hsame, -⟩ | ⟨entry, new, -, hadds⟩
  · rw [hsame]
    exact .same
  · rw [hadds.addresses]
    exact .add hadds.later

end CrossBreeder.Dnsmasq
