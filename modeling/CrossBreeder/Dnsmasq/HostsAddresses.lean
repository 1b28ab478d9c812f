import CrossBreeder.Dnsmasq.Enumeration
import CrossBreeder.Dnsmasq.HostsEntries
import Mathlib.Order.Minimal

/-!
# Addresses after a reload

What `cache_reload` leaves in the table. `noDuplicates_iff` says when no name has an address twice,
and `firstTrumps_iff` when the first record that was read with an address is the one reverse entry
for it. Both depend on what the table is like in front of each entry that is read.
-/

namespace CrossBreeder.Dnsmasq

open Foundation

variable {env : Env}

/-! ### Records with one address -/

structure SameAddress (left right : Crec) : Prop where
  typed : Meets (left.flags ∩ right.flags) {.ipv4, .ipv6}
  addr : left.addr = right.addr

structure HostsEntry.Has (entry : HostsEntry) (crec : Crec) : Prop where
  typed : Meets (crec.flags ∩ entry.flags) {.ipv4, .ipv6}
  addr : crec.addr = entry.addr

variable {entry : HostsEntry}

variable {crec : Crec}

theorem MadeFor.meets_iff (h : MadeFor entry crec) (flags : Flags) :
    Meets (flags ∩ crec.flags) {.ipv4, .ipv6} ↔ Meets (flags ∩ entry.flags) {.ipv4, .ipv6} := by
  unfold Meets
  rw [Finset.inter_assoc, h.mem_flags.2.2.2.2.2, Finset.inter_assoc, entry.flags_inter]

theorem MadeFor.sameAddress_iff (h : MadeFor entry crec) (old : Crec) :
    SameAddress old crec ↔ entry.Has old := by
  constructor
  · rintro ⟨htyped, haddr⟩
    exact ⟨(h.meets_iff _).mp htyped, haddr.trans h.addr⟩
  · rintro ⟨htyped, haddr⟩
    exact ⟨(h.meets_iff _).mpr htyped, haddr.trans h.addr.symm⟩

theorem MadeFor.has (h : MadeFor entry crec) : entry.Has crec := by
  refine ⟨(h.meets_iff _).mp ?_, h.addr⟩
  rw [Finset.inter_self]
  exact h.typed

variable {left right : Crec}

theorem SameAddress.symm (h : SameAddress left right) : SameAddress right left :=
  ⟨by rw [Finset.inter_comm]; exact h.typed, h.addr.symm⟩

theorem HostsEntry.typed_iff {flags : Flags} :
    Meets (flags ∩ entry.flags) {.ipv4, .ipv6} ↔ (if entry.v6 then .ipv6 else .ipv4) ∈ flags := by
  unfold Meets
  rw [Finset.inter_assoc, entry.flags_inter]
  unfold HostsEntry.prot
  split_ifs <;> simp [Finset.Nonempty]

theorem MadeFor.v6_eq {entry other : HostsEntry} (h : MadeFor other crec)
    (htype : (if entry.v6 then .ipv6 else .ipv4) ∈ crec.flags) : other.v6 = entry.v6 := by
  have hboth : (if entry.v6 then .ipv6 else .ipv4) ∈ crec.flags ∩ {.ipv4, .ipv6} := by
    refine Finset.mem_inter.mpr ⟨htype, ?_⟩
    split_ifs <;> decide
  rw [h.mem_flags.2.2.2.2.2] at hboth
  unfold HostsEntry.prot at hboth
  revert hboth
  cases other.v6 <;> cases entry.v6 <;> decide

theorem HostsEntry.Has.sameAddress (h : entry.Has left)
    (h' : entry.Has right) : SameAddress left right := by
  refine ⟨?_, h.addr.trans h'.addr.symm⟩
  have hleft := typed_iff.mp h.typed
  have hright := typed_iff.mp h'.typed
  refine meets_iff.mpr ⟨if entry.v6 then .ipv6 else .ipv4, ?_, Finset.mem_inter.mpr ⟨hleft, hright⟩⟩
  split_ifs <;> decide

theorem HostsEntry.Has.of_sameAddress {entry other : HostsEntry} (h : entry.Has right)
    (hmade : MadeFor other right) (hsame : SameAddress left right) : entry.Has left := by
  have hother := (hmade.sameAddress_iff left).mp hsame
  refine ⟨typed_iff.mpr ?_, hsame.addr.trans h.addr⟩
  rw [← hmade.v6_eq (typed_iff.mp h.typed)]
  exact typed_iff.mp hother.typed

theorem ReadingTable.noticed {s : Cache} {rhash : RevHash} {g : Ghost}
    (h : ReadingTable env s rhash g) (hproper : entry.Proper) (hnoticed : Noticed env s entry) :
    ∃ old ∈ hostsAddresses s, hostnameIsequal old.2.name entry.name = true ∧ entry.Has old.2 := by
  have hshape := h.sound.shape
  obtain ⟨answers, first, hanswers, hfirst, hhosts, haddr⟩ := hnoticed
  rw [NameAnswers.eq hshape] at hanswers
  have hmem := List.mem_of_head? hfirst
  rw [hanswers] at hmem
  obtain ⟨hchain, hmatch⟩ := List.mem_filter.mp hmem
  obtain ⟨-, htyped, hname⟩ := of_decide_eq_true hmatch
  have hmeets : Meets (s.flags first ∩ entry.flags) {.ipv4, .ipv6} := by
    unfold Meets at htyped ⊢
    rw [Finset.inter_assoc, entry.flags_inter]
    exact htyped
  have hin : (first, s.crec first) ∈ hostsAddresses s := by
    refine (mem_hostsAddresses hshape).mpr ⟨⟨_, (List.mem_filter.mp hchain).1⟩, rfl, hhosts, ?_⟩
    obtain ⟨flag, hflag, hmeets⟩ := meets_iff.mp hmeets
    exact meets_iff.mpr ⟨flag, hflag, (Finset.mem_inter.mp hmeets).1⟩
  obtain ⟨other, hother, hmade⟩ := h.made _ hin
  -- the two addresses are equally long
  have hv6 : other.v6 = entry.v6 := hmade.v6_eq (HostsEntry.typed_iff.mp hmeets)
  have hlength : (s.crec first).addr.length = entry.addr.length := by
    rw [hmade.addr, hother, hproper, hv6]
  refine ⟨_, hin, hname, hmeets, ?_⟩
  have htake := of_decide_eq_true haddr
  rw [List.take_length, ← hlength, List.take_length] at htake
  exact htake

/-! ### Duplicates -/

def NoDuplicates (s : Cache) : Prop :=
  ∀ left ∈ hostsAddresses s, ∀ right ∈ hostsAddresses s,
    hostnameIsequal left.2.name right.2.name = true → SameAddress left.2 right.2 → left = right

theorem hostnameIsequal_symm {left right : List UInt8} (h : hostnameIsequal left right = true) :
    hostnameIsequal right left = true :=
  decide_eq_true (of_decide_eq_true h).symm

/-- The answers to a question that are records of hosts files have different addresses. -/
def AnswersDiffer (env : Env) (s : Cache) : Prop :=
  ∀ name now prot answers,
    Yields (fun s crecp ↦ cacheFindByName env s (some crecp) name now prot)
      (cacheFindByName env s none name now prot)
        answers →
      answers.Pairwise fun left right ↦ (left, s.crec left) ∈ hostsAddresses s →
        (right, s.crec right) ∈ hostsAddresses s → ¬ SameAddress (s.crec left) (s.crec right)

variable {session : Session}

theorem NoDuplicates.answersDiffer (hreach : CacheReachable env session)
    (h : NoDuplicates session.cache) : AnswersDiffer env session.cache := by
  intro name now prot answers hyields
  obtain ⟨locals, pool, hall, hnodup, -, -, hentry⟩ := (lookups_enumerate hreach now prot).1 name
  obtain rfl := hall.unique hyields
  have hname : ∀ crecp ∈ locals ++ pool, hostnameIsequal (session.cache.name crecp) name = true :=
    fun crecp hmem ↦
    (of_decide_eq_true ((hentry crecp).mp hmem).question).2.2
  refine List.Pairwise.imp_of_mem ?_ hnodup
  intro left right hleft hright hne hleftHosts hrightHosts hsame
  have hequal : hostnameIsequal (session.cache.name left) (session.cache.name right) = true :=
    decide_eq_true ((of_decide_eq_true (hname left hleft)).trans
      (of_decide_eq_true (hname right hright)).symm)
  exact hne (congrArg Prod.fst (h _ hleftHosts _ hrightHosts hequal hsame))

/-- If the table has the name with the address already, the first answer to a question for the name
is such a record. -/
def DuplicateNoticed (env : Env) (before : HostsReading) (entry : HostsEntry) : Prop :=
  Granted env before.cache →
    (∃ old ∈ hostsAddresses before.cache, hostnameIsequal old.2.name entry.name = true ∧
      entry.Has old.2) → Noticed env before.cache entry

/-- What holds of every record and the earlier ones after a reload, if it depends on the state
before the entry. -/
theorem reading_forall_iff (hreach : CacheReachable env session) {input : ReloadInput}
    (hproper : input.Proper) {P : Set (Addr × Crec) → Addr × Crec → Prop}
    {Q : HostsReading → HostsEntry → Prop} (hskip : ∀ before entry, ¬ Granted env before.cache ∨
      Noticed env before.cache entry → Q before entry)
    (hadd : ∀ before entry new after rhash, AddsAddress env before.cache before.rhash entry
      new after rhash → (P (hostsAddresses before.cache) new ↔ Q before entry)) :
    (∀ value ∈ hostsAddresses (cacheReload env session.cache input),
        P (earlier (fun p : Addr × Crec ↦ p.2.serial)
        (hostsAddresses (cacheReload env session.cache input)) value)
          value) ↔
      AtEach (fun front item ↦ ∀ entry, item = .add entry →
      Q (readingBefore env session.cache front) entry)
        (input.steps env) := by
  rw [cacheReload_eq]
  refine ((reading_growsAlong hreach hproper).forall_iff P).trans ?_
  refine AtEach.congr ((reading_run hreach hproper).1.mono ?_)
  rintro front item ⟨hreading, hentry⟩
  change (∀ new ∈ hostsAddresses ((readingBefore env session.cache front).step env item).cache,
    new ∉ hostsAddresses (readingBefore env session.cache front).cache →
      P (hostsAddresses (readingBefore env session.cache front).cache) new) ↔ _
  generalize readingBefore env session.cache front = before at hreading ⊢
  rcases (reading_step hreading item hentry).2 with ⟨hsame, hskipped, -⟩ | ⟨entry, new, rfl, hadds⟩
  · rw [hsame]
    exact ⟨fun _ entry heq ↦ hskip before entry (hskipped entry heq),
      fun _ new hnew hnot ↦ absurd hnew hnot⟩
  · rw [hadds.addresses]
    constructor
    · rintro hall other heq
      cases heq
      exact (hadd _ _ _ _ _ hadds).mp (hall new (.inl rfl) fun hin ↦
        lt_irrefl _ (hadds.later new hin))
    · intro hright value hvalue hnot
      obtain rfl : value = new := hvalue.resolve_right hnot
      exact (hadd _ _ _ _ _ hadds).mpr (hright entry rfl)

theorem noDuplicates_reload (hreach : CacheReachable env session) {input : ReloadInput}
    (hproper : input.Proper) :
    NoDuplicates (cacheReload env session.cache input) ↔
      AtEach (fun front item ↦ ∀ entry, item = .add entry →
        DuplicateNoticed env (readingBefore env session.cache front) entry) (input.steps env) := by
  have hinj := (reading_growsAlong hreach hproper).injOn
  rw [← cacheReload_eq] at hinj
  rw [← reading_forall_iff (P := fun before value ↦ ∀ old ∈ before,
    ¬ (hostnameIsequal old.2.name value.2.name = true ∧ SameAddress old.2 value.2)) hreach hproper]
  · -- a duplicate is one of an earlier record
    constructor
    · rintro hnone value hvalue old ⟨hold, hlt⟩ ⟨hname, haddr⟩
      obtain rfl := hnone old hold value hvalue hname haddr
      exact absurd hlt (lt_irrefl _)
    · intro hall left hleft right hright hname haddr
      rcases lt_trichotomy left.2.serial right.2.serial with hlt | heq | hgt
      · exact absurd ⟨hname, haddr⟩ (hall right hright left ⟨hleft, hlt⟩)
      · exact hinj hleft hright heq
      · exact absurd ⟨hostnameIsequal_symm hname, haddr.symm⟩ (hall left hleft right ⟨hright, hgt⟩)
  · exact fun before entry hskipped hgranted _ ↦ hskipped.resolve_left (not_not_intro hgranted)
  · intro before entry new after rhash hadds
    simp only [hadds.made.name, hadds.made.sameAddress_iff]
    constructor
    · exact fun hnone _ ⟨old, hmem, hknown⟩ ↦ absurd hknown (hnone old hmem)
    · exact fun hnoticed old hmem hknown ↦
        hadds.unnoticed (hnoticed hadds.granted ⟨old, hmem, hknown⟩)

def HostsEntry.Repeats (entry other : HostsEntry) : Prop :=
  hostnameIsequal entry.name other.name = true ∧ entry.addr = other.addr

theorem exists_entry_of_mem (hreach : CacheReachable env session) {input : ReloadInput}
    (hproper : input.Proper) {front back : List ReadStep} {item : ReadStep}
    (hsplit : input.steps env = front ++ item :: back) {old : Addr × Crec}
    (hold : old ∈ hostsAddresses (readingBefore env session.cache front).cache) :
    ∃ first middle entry, front = first ++ .add entry :: middle ∧ MadeFor entry old.2 := by
  have hgrows := reading_growsAlong hreach hproper
  rw [hsplit] at hgrows
  obtain ⟨first, last, middle, hfirst, hadded, hnot⟩ := hgrows.append_left.exists_added hold
  obtain ⟨hreading, hentry⟩ := (reading_run hreach hproper).1 first last (middle ++ item :: back)
    (by rw [hsplit, hfirst]; simp)
  rcases (reading_step hreading last hentry).2 with ⟨hsame, -⟩ | ⟨entry, value, rfl, hadds⟩
  · exact absurd (hsame ▸ hadded) hnot
  · have hin : old ∈ hostsAddresses ((readingBefore env session.cache first).step env
      (.add entry)).cache := hadded
    rw [hadds.addresses] at hin
    obtain rfl : old = value := hin.resolve_right hnot
    exact ⟨first, middle, entry, hfirst, hadds.made⟩

theorem noDuplicates_of_lines (hreach : CacheReachable env session) {input : ReloadInput}
    (hproper : input.Proper) (hlines : (input.steps env).Pairwise fun item later ↦
      ∀ entry other, item = .add entry → later = .add other → ¬entry.Repeats other) :
    NoDuplicates (cacheReload env session.cache input) := by
  refine (noDuplicates_reload hreach hproper).mpr ?_
  rintro front item back hsplit entry rfl - ⟨old, hold, hname, hhas⟩
  obtain ⟨first, middle, other, rfl, hmade⟩ := exists_entry_of_mem hreach hproper hsplit hold
  rw [hsplit, List.append_assoc, List.cons_append] at hlines
  have hlater :=
    (List.pairwise_cons.mp (List.pairwise_append.mp hlines).2.1).1 (.add entry) (by simp)
  refine absurd ⟨?_, hmade.addr.symm.trans hhas.addr⟩ (hlater other entry rfl rfl)
  rwa [← hmade.name]

/-- No name has an address twice after a reload, and no answer has one twice, if and only if every
duplicate is noticed when it is read. -/
theorem noDuplicates_iff {session : Session} (hreach : CacheReachable env session)
    {input : ReloadInput} (hproper : input.Proper) :
    NoDuplicates (cacheReload env session.cache input) ∧ AnswersDiffer env
      (cacheReload env session.cache input) ↔ AtEach (fun front item ↦ ∀ entry, item = .add entry →
        DuplicateNoticed env (readingBefore env session.cache front) entry) (input.steps env) := by
  rw [← noDuplicates_reload hreach hproper]
  have hcall : (Call.reload input).Proper := trivial
  have hafter : CacheReachable env (session.call env (.reload input)) :=
    Reachable.step hreach hcall rfl
  exact ⟨fun h ↦ h.1, fun h ↦ ⟨h, NoDuplicates.answersDiffer hafter h⟩⟩

theorem mem_hostsAddresses_self {s : Cache} {record : Addr} (htable : InTable s record)
    (hhosts : .hosts ∈ s.flags record) (htyped : Meets (s.flags record) {.ipv4, .ipv6}) :
    (record, s.crec record) ∈ hostsAddresses s :=
  ⟨htable, rfl, hhosts, htyped⟩

def hostsEnv : Env := { smallEnv with malloc := fun count ↦ some (3 + count, default) }

def hostsLine (addr name : List UInt8) : HostsLine := ⟨addr, false, none, [⟨false, some name⟩]⟩

def hostsInput (lines : List HostsLine) : ReloadInput := ⟨[], false, some lines, []⟩

theorem proper_hostsInput {lines : List HostsLine}
    (h : ∀ line ∈ lines, line.v6 = false ∧ line.addr.length = 4) : (hostsInput lines).Proper := by
  refine ⟨by simp [hostsInput], by simp [hostsInput], ?_⟩
  intro file hfile others hothers line hline
  obtain rfl : file = (0, some lines) := by simpa [hostsInput, ReloadInput.files] using hfile
  obtain rfl : lines = others := Option.some.inj hothers
  rw [(h line hline).1, (h line hline).2]
  rfl

def startSession : Session := ⟨cacheInit hostsEnv default, none, [], false⟩

theorem reachable_startSession : CacheReachable hostsEnv startSession :=
  Reachable.start ⟨default, rfl⟩

/-- The name `n` with two addresses, and with the first one again. -/
def repeatedInput : ReloadInput :=
  hostsInput [hostsLine [10, 0, 0, 1] [110], hostsLine [10, 0, 0, 2] [110],
    hostsLine [10, 0, 0, 1] [110]]

theorem proper_repeatedInput : repeatedInput.Proper :=
  proper_hostsInput (by decide)

theorem noDuplicates_iff_repeated :
    NoDuplicates (cacheReload hostsEnv startSession.cache repeatedInput) ∧
        AnswersDiffer hostsEnv (cacheReload hostsEnv startSession.cache repeatedInput) ↔
      AtEach (fun front item ↦ ∀ entry, item = .add entry →
        DuplicateNoticed hostsEnv (readingBefore hostsEnv startSession.cache front) entry)
        (repeatedInput.steps hostsEnv) :=
  noDuplicates_iff reachable_startSession proper_repeatedInput

/-- The record of the third line is added, since the first answer then is that of the second line.
-/
theorem not_noDuplicates_repeated :
    CacheReachable hostsEnv startSession ∧ repeatedInput.Proper ∧
      ¬ NoDuplicates (cacheReload hostsEnv startSession.cache repeatedInput) := by
  refine ⟨reachable_startSession, proper_repeatedInput, fun h ↦ ?_⟩
  have hchain : Chain (cacheReload hostsEnv startSession.cache repeatedInput).hash
    Slot.record (.bucket 33)
      [3, 4, 5] none :=
    ⟨by decide +kernel, by decide +kernel, by decide +kernel, (by decide +kernel : _ = none)⟩
  have hfirst : (3, (cacheReload hostsEnv startSession.cache repeatedInput).crec 3) ∈
      hostsAddresses (cacheReload hostsEnv startSession.cache repeatedInput) :=
    mem_hostsAddresses_self
      ⟨33, by decide +kernel, _, hchain, by simp⟩ (by decide +kernel) (by decide +kernel)
  have hthird : (5, (cacheReload hostsEnv startSession.cache repeatedInput).crec 5) ∈
      hostsAddresses (cacheReload hostsEnv startSession.cache repeatedInput) :=
    mem_hostsAddresses_self
      ⟨33, by decide +kernel, _, hchain, by simp⟩ (by decide +kernel) (by decide +kernel)
  have hsame := h _ hfirst _ hthird (by decide +kernel) ⟨by decide +kernel, by decide +kernel⟩
  exact absurd (congrArg Prod.fst hsame) (by decide)

/-! ### Reverse entries -/

/-- The chains of addresses that `add_hosts_entry` goes through end. -/
def ChainsEnd (env : Env) (before : HostsReading) (entry : HostsEntry) : Prop :=
  ∀ answers, NameAnswers env before.cache entry answers →
    Ends (relink before.cache.next answers before.cache.cacheHead) (· ∈ before.cache.live)
      (before.rhash (revhash env entry.addr))

/-- The record that was read first is the only reverse entry for the address of an entry. -/
def FirstTrumps (after : Cache) (entry : HostsEntry) : Prop :=
  ∃ first ∈ hostsAddresses after, entry.Has first.2 ∧ .reverse ∈ first.2.flags ∧
    ∀ other ∈ hostsAddresses after, entry.Has other.2 →
      first.2.serial ≤ other.2.serial ∧ (.reverse ∈ other.2.flags → other = first)

/-- When a record is entered, the chain of its address leads to a record with the address if and
only if one was read before. -/
def ChainRight (env : Env) (before : HostsReading) (entry : HostsEntry) : Prop :=
  Granted env before.cache → ¬ Noticed env before.cache entry →
    (ChainKnows env before.cache before.rhash entry ↔ ∃ old ∈ hostsAddresses before.cache,
      entry.Has old.2)

/-- In the table the first record with an address is the reverse entry for it. -/
def ReverseFirst (s : Cache) : Prop :=
  ∀ value ∈ hostsAddresses s,
    (.reverse ∈ value.2.flags ↔
      ∀ old ∈ earlier (fun p : Addr × Crec ↦ p.2.serial) (hostsAddresses s) value,
      ¬ SameAddress old.2 value.2)

theorem firstReverse_reload (hreach : CacheReachable env session) {input : ReloadInput}
    (hproper : input.Proper) :
    ReverseFirst (cacheReload env session.cache input) ↔
      AtEach (fun front item ↦ ∀ entry, item = .add entry →
        ChainRight env (readingBefore env session.cache front) entry) (input.steps env) := by
  refine reading_forall_iff hreach hproper (P := fun before value ↦
    (.reverse ∈ value.2.flags ↔ ∀ old ∈ before, ¬ SameAddress old.2 value.2)) ?_ ?_
  · exact fun before entry hskipped hgranted hnot ↦ hskipped.elim (absurd hgranted) (absurd · hnot)
  · intro before entry new after rhash hadds
    have hfirst : (∀ old ∈ hostsAddresses before.cache, ¬ SameAddress old.2 new.2) ↔
        ¬ ∃ old ∈ hostsAddresses before.cache, entry.Has old.2 := by
      simp only [hadds.made.sameAddress_iff, not_exists, not_and]
    rw [hadds.reverse, hfirst, not_iff_not]
    exact ⟨fun h _ _ ↦ h, fun h ↦ h hadds.granted hadds.unnoticed⟩

/-- The chain of a bucket begins with an address in the bucket, and a bucket that has an address has
a chain. -/
structure HeadsRight (env : Env) (reading : HostsReading) : Prop where
  head : ∀ j record, reading.rhash j = some record →
    ∃ p ∈ hostsAddresses reading.cache, p.1 = record ∧ revhash env p.2.addr = j
  known : ∀ p ∈ hostsAddresses reading.cache, reading.rhash (revhash env p.2.addr) ≠ none

theorem HeadsRight.step {reading : HostsReading} (h : HeadsRight env reading)
    (htable : ∃ g, ReadingTable env reading.cache reading.rhash g) (item : ReadStep)
    (hproper : ∀ entry, item = .add entry → entry.Proper) :
    HeadsRight env (reading.step env item) := by
  rcases (reading_step htable item hproper).2 with ⟨hsame, -, hrhash⟩ | ⟨entry, new, rfl, hadds⟩
  · exact ⟨by rw [hsame, hrhash]; exact h.head, by rw [hsame, hrhash]; exact h.known⟩
  have hbucket : revhash env new.2.addr = revhash env entry.addr := by rw [hadds.made.addr]
  constructor
  · intro j record hrecord
    rw [hadds.rhash] at hrecord
    rw [hadds.addresses]
    by_cases hfront : .reverse ∈ new.2.flags ∧ j = revhash env entry.addr
    · rw [if_pos hfront.1, hfront.2, Function.update_self] at hrecord
      exact ⟨new, .inl rfl, Option.some.inj hrecord, hbucket.trans hfront.2.symm⟩
    · have hbefore : reading.rhash j = some record := by
        split_ifs at hrecord with hreverse
        · rwa [Function.update_of_ne fun hj ↦ hfront ⟨hreverse, hj⟩] at hrecord
        · exact hrecord
      obtain ⟨p, hp, heq⟩ := h.head j record hbefore
      exact ⟨p, .inr hp, heq⟩
  · intro p hp
    rw [hadds.addresses] at hp
    rw [hadds.rhash]
    by_cases hreverse : .reverse ∈ new.2.flags
    · rw [if_pos hreverse]
      by_cases hj : revhash env p.2.addr = revhash env entry.addr
      · rw [hj, Function.update_self]
        exact Option.some_ne_none _
      · rw [Function.update_of_ne hj]
        exact h.known p (hp.resolve_left fun heq ↦ hj (heq ▸ hbucket))
    · rw [if_neg hreverse]
      rcases hp with rfl | hp
      · -- the chain led to a record with the address
        obtain ⟨-, walked, -, -, hhead, lookup, hlookup, -⟩ :=
          not_not.mp (mt hadds.reverse.mpr hreverse)
        rw [hbucket, ← hhead, ne_eq, List.head?_eq_none_iff]
        exact List.ne_nil_of_mem hlookup
      · exact h.known p hp

/-- Where no two addresses are in one bucket, the first record with an address is the reverse entry
for it, whatever is linked in between. -/
theorem reverseFirst_of_lines (hreach : CacheReachable env session) {input : ReloadInput}
    (hproper : input.Proper) (hlines : (input.steps env).Pairwise fun item later ↦
      ∀ entry other, item = .add entry → later = .add other →
      revhash env entry.addr = revhash env other.addr → entry.addr = other.addr) :
    ReverseFirst (cacheReload env session.cache input) := by
  refine (firstReverse_reload hreach hproper).mpr ?_
  obtain ⟨g, hsound⟩ := sound_of_reachable hreach
  obtain ⟨htable, hnone⟩ := reading_start hsound
  have hstart : HeadsRight env (startReading env session.cache) :=
    ⟨fun j record hrecord ↦
      absurd hrecord (by simp [startReading]), fun p hp ↦ absurd (hnone ▸ hp) (Set.notMem_empty p)⟩
  have hall :=
    @atEach_foldl _ (input.steps env) _ (HostsReading.step env) (startReading env session.cache)
    (fun reading ↦ (∃ g, ReadingTable env reading.cache reading.rhash g) ∧ HeadsRight env reading)
    ⟨htable, hstart⟩ fun reading item hitem h ↦
      have hentry : ∀ entry, item = .add entry → entry.Proper :=
        fun entry heq ↦ hproper.entry (heq ▸ hitem)
      ⟨(reading_step h.1 item hentry).1, h.2.step h.1 item hentry⟩
  rintro front item back hsplit entry rfl - -
  obtain ⟨⟨g, hreading⟩, hheads⟩ := hall.1 front _ back hsplit
  -- what is in the bucket has the address of the entry
  have hsame : ∀ p ∈ hostsAddresses (readingBefore env session.cache front).cache,
      revhash env p.2.addr = revhash env entry.addr → entry.Has p.2 := by
    intro p hp hbucket
    obtain ⟨first, middle, other, rfl, hmade⟩ := exists_entry_of_mem hreach hproper hsplit hp
    have hsteps := hlines
    rw [hsplit, List.append_assoc, List.cons_append] at hsteps
    have hlater :=
      (List.pairwise_cons.mp (List.pairwise_append.mp hsteps).2.1).1 (.add entry) (by simp)
    have haddr := hlater other entry rfl rfl (by rw [← hmade.addr, hbucket])
    have hother := @ReloadInput.Proper.entry env input hproper other (by rw [hsplit]; simp)
    have hentry := @ReloadInput.Proper.entry env input hproper entry (by rw [hsplit]; simp)
    have hv6 : other.v6 = entry.v6 := by
      unfold HostsEntry.Proper at hother hentry
      rw [haddr, hentry] at hother
      revert hother
      cases other.v6 <;> cases entry.v6 <;> decide
    have htyped := HostsEntry.typed_iff.mp hmade.has.typed
    rw [hv6] at htyped
    exact ⟨HostsEntry.typed_iff.mpr htyped, hmade.addr.trans haddr⟩
  constructor
  · rintro ⟨-, walked, -, -, hhead, lookup, hlookup, -⟩
    obtain ⟨record, hrecord⟩ := Option.ne_none_iff_exists'.mp
      (mt List.head?_eq_none_iff.mp (List.ne_nil_of_mem hlookup))
    obtain ⟨p, hp, -, hbucket⟩ := hheads.head _ record (hhead.symm.trans hrecord)
    exact ⟨p, hp, hsame p hp hbucket⟩
  · rintro ⟨old, hold, hhas⟩
    have hknown := hheads.known old hold
    rw [hhas.addr] at hknown
    obtain ⟨record, hrecord⟩ := Option.ne_none_iff_exists'.mp hknown
    obtain ⟨p, hp, rfl, hbucket⟩ := hheads.head _ record hrecord
    have hcrec : (readingBefore env session.cache front).cache.crec p.1 = p.2 :=
      ((mem_hostsAddresses hreading.sound.shape).mp hp).2.1
    obtain ⟨answers, hanswers⟩ : ∃ answers,
      NameAnswers env (readingBefore env session.cache front).cache entry answers :=
      ⟨_, (NameAnswers.eq hreading.sound.shape).mpr rfl⟩
    obtain ⟨walked, hlinked, hhead, -⟩ :=
      (hreading.ends_relink hanswers (revhash env entry.addr)).exists_linked
    refine ⟨_, walked, hanswers, hlinked, hhead, p.1, List.mem_of_head? (hhead.trans hrecord), ?_⟩
    have hpHas := hsame p hp hbucket
    unfold HasAddr Cache.flags
    rw [hcrec, hpHas.addr]
    exact ⟨hpHas.typed, decide_eq_true rfl⟩

section FirstReverse

variable {s : Cache}

theorem ReverseFirst.firstTrumps (h : ReverseFirst s)
    (hinj : Set.InjOn (fun p : Addr × Crec ↦ p.2.serial) (hostsAddresses s))
    (hmade : ∀ p ∈ hostsAddresses s, ∃ entry : HostsEntry, entry.Proper ∧ MadeFor entry p.2)
    (hknown : ∃ old ∈ hostsAddresses s, entry.Has old.2) : FirstTrumps s entry := by
  obtain ⟨first, ⟨hfirst, hhas⟩, hmin⟩ := exists_minimalFor_of_wellFoundedLT
    (fun p ↦ p ∈ hostsAddresses s ∧ entry.Has p.2) (fun p : Addr × Crec ↦ p.2.serial) hknown
  have hle : ∀ other ∈ hostsAddresses s, entry.Has other.2 → first.2.serial ≤ other.2.serial :=
    fun other hother hsame ↦ (Nat.le_total _ _).elim id (hmin ⟨hother, hsame⟩)
  obtain ⟨source, -, hsource⟩ := hmade first hfirst
  refine ⟨first, hfirst, hhas, (h first hfirst).mpr ?_, fun other hother hsame ↦
    ⟨hle other hother hsame, fun hreverse ↦ ?_⟩⟩
  · rintro old ⟨hold, hlt⟩ hsame
    exact absurd (hle old hold (hhas.of_sameAddress hsource hsame)) (Nat.not_le.mpr hlt)
  · by_contra hne
    have hlt : first.2.serial < other.2.serial :=
      lt_of_le_of_ne (hle other hother hsame) fun heq ↦ hne (hinj hfirst hother heq).symm
    exact (h other hother).mp hreverse first ⟨hfirst, hlt⟩ (hhas.sameAddress hsame)

/-- The record that was made for an entry is a reverse entry if and only if there is none before it.
-/
theorem FirstTrumps.reverse_iff (h : FirstTrumps s entry)
    (hinj : Set.InjOn (fun p : Addr × Crec ↦ p.2.serial) (hostsAddresses s)) {value : Addr × Crec}
    (hvalue : value ∈ hostsAddresses s) (hmade : MadeFor entry value.2) :
    .reverse ∈ value.2.flags ↔ ∀ old ∈ earlier (fun p : Addr × Crec ↦ p.2.serial)
      (hostsAddresses s) value, ¬ SameAddress old.2 value.2 := by
  obtain ⟨first, hfirst, hhas, hreverse, hothers⟩ := h
  constructor
  · rintro hvalueReverse old ⟨hold, hlt⟩ hsame
    obtain rfl := (hothers value hvalue hmade.has).2 hvalueReverse
    exact absurd (hothers old hold ((hmade.sameAddress_iff _).mp hsame)).1 (Nat.not_le.mpr hlt)
  · intro hnone
    have hle := (hothers value hvalue hmade.has).1
    rcases hle.lt_or_eq with hlt | heq
    · exact absurd ((hmade.sameAddress_iff _).mpr hhas) (hnone first ⟨hfirst, hlt⟩)
    · obtain rfl := hinj hfirst hvalue heq
      exact hreverse

end FirstReverse

/-- The chains always end. The first record that is read with an address is the only reverse entry
for it, for all addresses, if and only if the chain of its address is right whenever a record is
entered. -/
theorem firstTrumps_iff {session : Session} (hreach : CacheReachable env session)
    {input : ReloadInput} (hproper : input.Proper) :
    AtEach (fun front item ↦ ∀ entry, item = .add entry →
        ChainsEnd env (readingBefore env session.cache front) entry ∧
          (Granted env (readingBefore env session.cache front).cache →
            FirstTrumps (cacheReload env session.cache input) entry)) (input.steps env) ↔
      AtEach (fun front item ↦ ∀ entry, item = .add entry →
        ChainRight env (readingBefore env session.cache front) entry) (input.steps env) := by
  rw [← firstReverse_reload hreach hproper]
  have hgrows := reading_growsAlong hreach hproper
  obtain ⟨hrun, hend⟩ := reading_run hreach hproper
  have hinj : Set.InjOn (fun p : Addr × Crec ↦
    p.2.serial) (hostsAddresses (cacheReload env session.cache input)) := by
    rw [cacheReload_eq]
    exact hgrows.injOn
  have hmade : ∀ p ∈ hostsAddresses (cacheReload env session.cache input),
      ∃ entry : HostsEntry, entry.Proper ∧ MadeFor entry p.2 := by
    rw [cacheReload_eq]
    obtain ⟨g, hreading⟩ := hend
    exact hreading.made
  constructor
  · intro hall value hvalue
    -- the value was added for some entry
    have hvalue' := hvalue
    rw [cacheReload_eq] at hvalue'
    obtain ⟨front, item, back, hsplit, hadded, hnot⟩ := hgrows.exists_added hvalue'
    obtain ⟨hreading, hentry⟩ := hrun front item back hsplit
    rcases (reading_step hreading item hentry).2 with ⟨hsame, -⟩ | ⟨entry, new, heq, hadds⟩
    · exact absurd (hsame ▸ hadded) hnot
    · have hin : value ∈ hostsAddresses ((readingBefore env session.cache front).step env
        item).cache := hadded
      rw [hadds.addresses] at hin
      obtain rfl : value = new := hin.resolve_right hnot
      exact ((hall front item back hsplit entry heq).2 hadds.granted).reverse_iff hinj
        hvalue hadds.made
  · intro hfirst front item back hsplit entry heq
    obtain ⟨⟨g, hreading⟩, hentry⟩ := hrun front item back hsplit
    refine ⟨fun answers hanswers ↦ hreading.ends_relink hanswers _, fun hgranted ↦
      hfirst.firstTrumps hinj hmade ?_⟩
    -- the address is in the table after the step, and stays there
    have hstays := hgrows.subset front item back hsplit
    rw [cacheReload_eq]
    rcases (reading_step ⟨g, hreading⟩ item hentry).2 with ⟨hsame, hskipped, -⟩ | ⟨other,
      new, heq', hadds⟩
    · have hnoticed := (hskipped entry heq).resolve_left (not_not_intro hgranted)
      obtain ⟨old, hold, -, hhas⟩ := hreading.noticed (hentry entry heq) hnoticed
      exact ⟨old, hstays (hsame ▸ hold), hhas⟩
    · obtain rfl : entry = other := by
        rw [heq] at heq'
        cases heq'
        rfl
      have hnew :
        new ∈ hostsAddresses ((readingBefore env session.cache front).step env item).cache := by
        rw [hadds.addresses]
        exact .inl rfl
      exact ⟨new, hstays hnew, hadds.made.has⟩

/-- The name `b` has two addresses, the first one in the chain of the address of `a`. -/
def relinkedInput : ReloadInput :=
  hostsInput [hostsLine [10, 0, 0, 2] [97], hostsLine [10, 0, 1, 0] [98],
    hostsLine [10, 0, 2, 0] [98], hostsLine [10, 0, 0, 2] [99]]

theorem proper_relinkedInput : relinkedInput.Proper :=
  proper_hostsInput (by decide)

theorem firstTrumps_iff_relinked :
    AtEach (fun front item ↦ ∀ entry, item = .add entry →
        ChainsEnd hostsEnv (readingBefore hostsEnv startSession.cache front) entry ∧
          (Granted hostsEnv (readingBefore hostsEnv startSession.cache front).cache →
            FirstTrumps (cacheReload hostsEnv startSession.cache relinkedInput) entry))
        (relinkedInput.steps hostsEnv) ↔
      AtEach (fun front item ↦ ∀ entry, item = .add entry →
        ChainRight hostsEnv (readingBefore hostsEnv startSession.cache front) entry)
        (relinkedInput.steps hostsEnv) :=
  firstTrumps_iff reachable_startSession proper_relinkedInput

/-- The search for `b` takes the record of `a` off its chain, and so `c` gets a reverse entry too.
-/
theorem not_firstTrumps_relinked :
    CacheReachable hostsEnv startSession ∧ relinkedInput.Proper ∧
      ¬ AtEach (fun front item ↦ ∀ entry, item = .add entry →
        ChainsEnd hostsEnv (readingBefore hostsEnv startSession.cache front) entry ∧
          (Granted hostsEnv (readingBefore hostsEnv startSession.cache front).cache →
            FirstTrumps (cacheReload hostsEnv startSession.cache relinkedInput) entry))
        (relinkedInput.steps hostsEnv) := by
  refine ⟨reachable_startSession, proper_relinkedInput, fun h ↦ ?_⟩
  have hsplit : relinkedInput.steps hostsEnv =
      [.openFile, .line] ++ .add ⟨[97], [10, 0, 0, 2], false, false, 0⟩ ::
        ((relinkedInput.steps hostsEnv).drop 3) := by
    rfl
  have hgranted :
    Granted hostsEnv (readingBefore hostsEnv startSession.cache [.openFile, .line]).cache := by
    unfold Granted
    decide +kernel
  obtain ⟨first, -, -, -, hothers⟩ := (h _ _ _ hsplit _ rfl).2 hgranted
  have hleft : (3, (cacheReload hostsEnv startSession.cache relinkedInput).crec 3) ∈
      hostsAddresses (cacheReload hostsEnv startSession.cache relinkedInput) :=
    mem_hostsAddresses_self
      ⟨46, by decide +kernel, [3], ⟨by decide +kernel, (by decide +kernel : _ = none)⟩, by simp⟩
      (by decide +kernel) (by decide +kernel)
  have hright : (6, (cacheReload hostsEnv startSession.cache relinkedInput).crec 6) ∈
      hostsAddresses (cacheReload hostsEnv startSession.cache relinkedInput) :=
    mem_hostsAddresses_self
      ⟨44, by decide +kernel, [6], ⟨by decide +kernel, (by decide +kernel : _ = none)⟩, by simp⟩
      (by decide +kernel) (by decide +kernel)
  have hleftFirst := (hothers _ hleft ⟨by decide +kernel, by decide +kernel⟩).2 (by decide +kernel)
  have hrightFirst :=
    (hothers _ hright ⟨by decide +kernel, by decide +kernel⟩).2 (by decide +kernel)
  exact absurd (congrArg Prod.fst (hleftFirst.trans hrightFirst.symm)) (by decide)

end CrossBreeder.Dnsmasq
