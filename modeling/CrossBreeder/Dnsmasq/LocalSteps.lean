import CrossBreeder.Dnsmasq.Insertion
import CrossBreeder.Dnsmasq.NameSearch

/-!
# Hosts files and leases as steps

The functions that add records outside the pool to the hash table and take them out of it, as
sequences of steps. `rehash` counts as one step: while it runs, the records that have not been moved
yet are in no chain (`Rehashing`).

`Grown` says that records were added and the others stayed as they are, and `GrownBy` of which kind
they are:
-/

namespace CrossBreeder.Dnsmasq

open Foundation

variable {env : Env}

/-! ### The table grows -/

theorem le_tableSize (bound fuel size : ℕ) : size ≤ tableSize bound fuel size := by
  induction fuel generalizing size with
  | zero => exact Nat.le_refl size
  | succ fuel ih =>
    unfold tableSize
    split_ifs
    · exact (Nat.le_mul_of_pos_right size (by omega)).trans (ih (size * 2))
    · exact Nat.le_refl size

/-- The state of `rehash` when some of the records have been moved to the new table. The others
still have the links of the old table. -/
structure Rehashing (env : Env) (old : Cache) (g : Ghost) (size : ℕ) (moved : Addr → Prop)
    (s : Cache) (chain : ℕ → List Addr) : Prop where
  rest : s = { old with hash := s.hash, hashSize := size }
  shape : ∃ unhashed, Shape env s { g with chain := chain, unhashed := unhashed } ∧
    ∀ record ∈ unhashed, record ∈ g.unhashed ∨ (∃ i, record ∈ g.chain i) ∧ ¬ moved record
  mem : ∀ record, (∃ i, record ∈ chain i) ↔ moved record
  kept : ∀ record, ¬ moved record → s.hash (.record record) = old.hash (.record record)

variable {g : Ghost}

theorem Rehashing.start {old : Cache} (h : Shape env old g) {size : ℕ} (hsize : 0 < size) :
    Rehashing env old g size (fun _ ↦ False) (old.clearTable size) fun _ ↦ [] := by
  refine ⟨rfl, ⟨g.unhashed ++ (List.range old.hashSize).flatMap g.chain, ?_, ?_⟩,
    by simp, fun _ _ ↦ rfl⟩
  · refine { h with
      table := hsize
      chained := fun _ _ ↦ rfl
      nodup := fun _ ↦ List.nodup_nil
      member := fun _ record hrecord ↦ absurd hrecord (by simp)
      order := fun _ ↦ List.Pairwise.nil
      complete := ?_ }
    intro record hrecord hused
    refine .inr ?_
    rcases h.complete record hrecord hused with hhashed | hhand
    · refine List.mem_append_right _ (List.mem_flatMap.mpr ⟨_, ?_, hhashed⟩)
      exact List.mem_range.mpr (hashBucket_lt env h.table _)
    · exact List.mem_append_left _ hhand
  · intro record hrecord
    rcases List.mem_append.mp hrecord with hhand | hhashed
    · exact .inl hhand
    · obtain ⟨i, -, hmem⟩ := List.mem_flatMap.mp hhashed
      exact .inr ⟨⟨i, hmem⟩, not_false⟩

variable {s : Cache}

/-- `cache_hash` puts a record into a chain and leaves the links of the records alone that are in
none. -/
theorem hash_cacheHash_of_out (h : Shape env s g) {crecp record : Addr}
    (hne : record ≠ crecp) (hout : g.Out record) :
    (cacheHash env s crecp).hash (.record record) = s.hash (.record record) := by
  obtain ⟨front, back, hchain, hplace, -, -⟩ := h.hashPlace_spec crecp
  have hslot : Slot.record record ≠ hashPlace env s crecp := by
    rw [hplace]
    intro heq
    have hmem := Shape.lastSlot_mem_chain hchain
    rw [← heq] at hmem
    exact hout _ (by simpa using hmem)
  have hown : Slot.record record ≠ Slot.record crecp := by simpa using hne
  simp only [cacheHash, Cache.setLink]
  rw [Function.update_of_ne hslot, Function.update_of_ne hown]

variable {crecp : Addr}

theorem Rehashing.hash {old s : Cache} {size i : ℕ} {moved : Addr → Prop}
    {chain : ℕ → List Addr} (hold : Shape env old g)
    (h : Rehashing env old g size moved s chain) (hmem : crecp ∈ g.chain i)
    (hmoved : ¬ moved crecp) :
    ∃ chain', Rehashing env old g size (fun record ↦ moved record ∨ record = crecp)
      (cacheHash env s crecp) chain' := by
  obtain ⟨unhashed, hshape, hunhashed⟩ := h.shape
  have hmember := hold.member i crecp hmem
  have hcrec : s.crec = old.crec := by rw [h.rest]
  have hflags : s.flags crecp = old.flags crecp := by
    unfold Cache.flags
    rw [hcrec]
  have hout : ∀ record, ¬ moved record → ∀ j, record ∉ chain j :=
    fun record hrecord j hj ↦ hrecord ((h.mem record).mp ⟨j, hj⟩)
  have hheld : g.held.filter (· ≠ crecp) = g.held :=
    List.filter_eq_self.mpr fun record hrecord ↦ by
      simpa using ne_of_mem_of_not_mem hrecord hmember.apart.2.2
  obtain ⟨front, back, hchain, hplace, hfront, hback⟩ := hshape.hashPlace_spec crecp
  have hhashed := hshape.hash_at rfl hchain hplace hfront hback (hout crecp hmoved)
    (by rw [hflags]; exact hmember.used) (by rw [h.rest]; exact hmember.live)
    (by rw [hflags]; exact hmember.isLocal) ⟨hmember.apart.1, hmember.apart.2.1⟩
  rw [hheld] at hhashed
  refine ⟨_, ⟨?_, ⟨_, hhashed, ?_⟩, ?_, ?_⟩⟩
  · rw [h.rest]
    rfl
  · intro record hrecord
    obtain ⟨hrecord, hne⟩ := List.mem_filter.mp hrecord
    refine (hunhashed record hrecord).imp_right fun hleft ↦ ⟨hleft.1, ?_⟩
    rintro (hmoved | rfl)
    · exact hleft.2 hmoved
    · simp at hne
  · intro record
    simp only [mem_update_insert hchain crecp record, exists_or, h.mem record, exists_and_left,
      exists_eq, and_true]
  · intro record hrecord
    rw [not_or] at hrecord
    rw [hash_cacheHash_of_out hshape hrecord.2 (hout record hrecord.1)]
    exact h.kept record hrecord.1

/-- The inner loop of `rehash`: the records of a chain are moved. -/
theorem rehashChain_spec {old : Cache} {size i : ℕ} (hold : Shape env old g) (todo : List Addr) :
    ∀ {fuel : ℕ} {done : List Addr} {s : Cache} {moved : Addr → Prop} {chain : ℕ → List Addr},
      Rehashing env old g size moved s chain → g.chain i = done ++ todo →
      (∀ record ∈ todo, ¬ moved record) → todo.length < fuel →
      ∃ chain', Rehashing env old g size (fun record ↦ moved record ∨ record ∈ todo)
        (rehashChain env fuel todo.head? s) chain' := by
  induction todo with
  | nil =>
    intro fuel done s moved chain h _ _ hfuel
    obtain ⟨fuel, rfl⟩ : ∃ k, fuel = k + 1 := ⟨fuel - 1, by simp at hfuel; omega⟩
    refine ⟨chain, ?_⟩
    simpa [rehashChain] using h
  | cons crecp todo ih =>
    intro fuel done s moved chain h hchain hmoved hfuel
    obtain ⟨fuel, rfl⟩ : ∃ k, fuel = k + 1 := ⟨fuel - 1, by simp at hfuel; omega⟩
    have hmem : crecp ∈ g.chain i := by simp [hchain]
    have hfresh := hmoved crecp List.mem_cons_self
    have hnext : s.hash (.record crecp) = todo.head? := by
      rw [h.kept crecp hfresh]
      exact hold.hash_record hchain
    have hapart : crecp ∉ todo := by
      have hnodup := hold.nodup i
      rw [hchain] at hnodup
      exact (List.nodup_cons.mp (List.nodup_append.mp hnodup).2.1).1
    obtain ⟨chain', hone⟩ := h.hash hold hmem hfresh
    obtain ⟨chain'', hall⟩ := ih hone (show g.chain i = (done ++ [crecp]) ++ todo by simp [hchain])
      (by
        intro record hrecord
        rw [not_or]
        exact ⟨hmoved record (List.mem_cons_of_mem _ hrecord), ne_of_mem_of_not_mem hrecord hapart⟩)
      (by simpa using hfuel)
    refine ⟨chain'', ?_⟩
    simp only [List.head?_cons, rehashChain, hnext, List.mem_cons, ← or_assoc]
    exact hall

theorem rehashAll_spec {old : Cache} (hold : Shape env old g) {size : ℕ} (hsize : 0 < size) :
    ∃ chain, Rehashing env old g size (fun record ↦ ∃ i, record ∈ g.chain i)
      (rehashAll env old size)
      chain := by
  -- the records of the first buckets have been moved
  have hloop : ∀ count ≤ old.hashSize, ∃ chain,
      Rehashing env old g size (fun record ↦ ∃ i < count, record ∈ g.chain i)
        ((List.range count).foldl
          (fun s i ↦ rehashChain env old.walkFuel (old.hash (.bucket i)) s) (old.clearTable size))
            chain := by
    intro count
    induction count with
    | zero =>
      refine fun _ ↦ ⟨fun _ ↦ [], ?_⟩
      simpa using Rehashing.start hold hsize
    | succ count ih =>
      intro hcount
      obtain ⟨chain, hdone⟩ := ih (by omega)
      have hstart : old.hash (.bucket count) = (g.chain count).head? := by
        rw [(hold.chained count (by omega)).link_start, Option.or_none]
      obtain ⟨chain', hnext⟩ := rehashChain_spec hold (g.chain count) hdone (List.nil_append _).symm
        (by
          rintro record hrecord ⟨j, hj, hother⟩
          exact absurd (hold.chain_unique hother hrecord) (by omega))
        (hold.length_chain_lt count)
      refine ⟨chain', ?_⟩
      rw [List.range_succ, List.foldl_append, List.foldl_cons, List.foldl_nil, hstart]
      have hmoved : (fun record ↦ ∃ i < count + 1, record ∈ g.chain i) =
          fun record ↦ (∃ i < count, record ∈ g.chain i) ∨ record ∈ g.chain count := by
        funext record
        simp only [Nat.lt_succ_iff_lt_or_eq, or_and_right, exists_or, exists_eq_left]
      rw [hmoved]
      exact hnext
  obtain ⟨chain, hall⟩ := hloop old.hashSize (Nat.le_refl _)
  refine ⟨chain, ?_⟩
  have hmoved : (fun record ↦ ∃ i, record ∈ g.chain i) =
      fun record ↦ ∃ i < old.hashSize, record ∈ g.chain i := by
    funext record
    refine propext ⟨?_, ?_⟩
    · rintro ⟨i, hi⟩
      exact ⟨i, hold.lt_hashSize hi, hi⟩
    · rintro ⟨i, -, hi⟩
      exact ⟨i, hi⟩
  rw [hmoved]
  exact hall

theorem rehash_spec (hshape : Shape env s g) (size : ℕ) :
    ∃ g', Steps env Plain (s, g) (rehash env s size, g') ∧ Frame env g g' ∧
      (∀ record, g'.Holds record ↔ g.Holds record) ∧ (rehash env s size).crec = s.crec := by
  unfold rehash
  dsimp only
  split_ifs
  · exact ⟨g, Steps.refl _, Frame.refl g, fun _ ↦ Iff.rfl, rfl⟩
  · have hold : Shape env { s with mallocs := s.mallocs + 1 } g := hshape.counters _ _ _ _ _ _
    obtain ⟨chain, hdone⟩ := rehashAll_spec hold
      (Nat.lt_of_lt_of_le (by decide) (le_tableSize (size / 10) size 64))
    obtain ⟨unhashed, hnew, hunhashed⟩ := hdone.shape
    have hnew' : Shape env _ { g with chain := chain } := hnew.unhashed_mono fun record hrecord ↦
      (hunhashed record hrecord).resolve_right fun hleft ↦ hleft.2 hleft.1
    refine ⟨{ g with chain := chain }, Steps.single Plain.plain ?_,
      ⟨rfl, rfl, rfl, rfl, fun _ hmem ↦ .inl hmem⟩, hdone.mem, ?_⟩
    · rw [hdone.rest] at hnew' ⊢
      exact .retable hnew' hdone.mem
    · rw [hdone.rest]
  · exact ⟨g, Steps.single Plain.plain (.counters _ _ _ _ (Nat.le_refl s.uid)), Frame.refl g,
      fun _ ↦ Iff.rfl, rfl⟩

theorem rehash_tidies (s : Cache) (size : ℕ) : Tidies env s (rehash env s size) := by
  intro g hshape _
  obtain ⟨g', hsteps, hframe, -⟩ := rehash_spec hshape size
  exact ⟨g', hsteps, hframe⟩

/-! ### Calls that add records -/

def Local (kind : Kind) : Prop := kind = .plain ∨ kind = .write

theorem Local.plain : Local .plain := .inl rfl

theorem Local.write : Local .write := .inr rfl

theorem Local.of_plain (kind : Kind) (h : Plain kind) : Local kind := .inl h

structure LocalFrame (env : Env) (g g' : Ghost) : Prop where
  fresh : g'.fresh = g.fresh
  loose : g'.loose = g.loose
  held : g'.held = g.held
  unhashed : ∀ crecp ∈ g'.unhashed, crecp ∈ g.unhashed ∨ env.cachesize ≤ crecp

theorem LocalFrame.refl (g : Ghost) : LocalFrame env g g := ⟨rfl, rfl, rfl, fun _ hmem ↦ .inl hmem⟩

theorem LocalFrame.trans {first second third : Ghost} (hleft : LocalFrame env first second)
    (hright : LocalFrame env second third) : LocalFrame env first third where
  fresh := hright.fresh.trans hleft.fresh
  loose := hright.loose.trans hleft.loose
  held := hright.held.trans hleft.held
  unhashed := fun crecp hmem ↦ (hright.unhashed crecp hmem).elim (hleft.unhashed crecp) .inr

theorem Frame.toLocal {g g' : Ghost} (h : Frame env g g') : LocalFrame env g g' :=
  ⟨h.fresh, h.loose, h.held, h.unhashed⟩

/-- The state after the call is reached by steps that leave nothing in hand, spare records apart. -/
def Adds (env : Env) (s s' : Cache) : Prop :=
  ∀ g, Shape env s g → g.loose = [] → ∃ g', Steps env Local (s, g) (s', g') ∧ LocalFrame env g g'

theorem Tidies.adds {s s' : Cache} (h : Tidies env s s') : Adds env s s' := by
  intro g hshape hloose
  obtain ⟨g', hsteps, hframe⟩ := h g hshape hloose
  exact ⟨g', hsteps.mono Local.of_plain, hframe.toLocal⟩

theorem Adds.refl (s : Cache) : Adds env s s := (Tidies.refl s).adds

theorem Adds.trans {first second third : Cache} (hleft : Adds env first second)
    (hright : Adds env second third) : Adds env first third := by
  intro g hshape hloose
  obtain ⟨g', hsteps, hframe⟩ := hleft g hshape hloose
  obtain ⟨g'', hsteps', hframe'⟩ := hright g' (hshape.steps hsteps) (hframe.loose.trans hloose)
  exact ⟨g'', hsteps.trans hsteps', hframe.trans hframe'⟩

theorem Adds.foldl {σ α : Type} (cache : σ → Cache) (call : σ → α → σ)
    (hcall : ∀ state item, Adds env (cache state) (cache (call state item))) (items : List α)
    (state : σ) : Adds env (cache state) (cache (items.foldl call state)) := by
  induction items generalizing state with
  | nil => exact Adds.refl _
  | cons item items ih => exact (hcall state item).trans (ih (call state item))

/-! ### Records in hand -/

theorem modify_renew (s : Cache) (crecp : Addr) (change : Crec → Crec) :
    (s.modify crecp change).renew crecp =
      { s with
        crec := Function.update s.crec crecp { change (s.crec crecp) with serial := s.serials }
        serials := s.serials + 1 } := by
  simp [Cache.renew, Cache.modify]

inductive Obtained (env : Env) (s : Cache) (g : Ghost) : Cache × Option Addr → Prop
  | none {s' : Cache} (hsteps : Steps env Local (s, g) (s', g)) (hcrec : s'.crec = s.crec) :
      Obtained env s g (s', none)
  | some {s' : Cache} {g' : Ghost} {crecp : Addr} (hsteps : Steps env Local (s, g) (s', g'))
      (hframe : LocalFrame env { g with held := crecp :: g.held } g') (hchain : g'.chain = g.chain)
      (hcrec : ∀ record, (∃ i, record ∈ g.chain i) → s'.crec record = s.crec record) :
      Obtained env s g (s', some crecp)

theorem mallocRecord_spec (h : Shape env s g) :
    Obtained env s g (mallocRecord env s) := by
  unfold mallocRecord
  cases env.malloc s.mallocs with
  | none => exact .none (Steps.single Local.plain (.counters _ _ _ _ (Nat.le_refl s.uid))) rfl
  | some granted =>
    obtain ⟨crecp, contents⟩ := granted
    dsimp only
    split_ifs with hlive
    · exact .none (Steps.single Local.plain (.counters _ _ _ _ (Nat.le_refl s.uid))) rfl
    · have hhold : Step env .write (s, g) (_, _) := .hold hlive contents (s.mallocs + 1)
      refine .some (Steps.single Local.write hhold) (LocalFrame.refl _) rfl ?_
      rintro record ⟨i, hi⟩
      refine Function.update_of_ne ?_ _ _
      rintro rfl
      exact hlive (h.member i record hi).live

theorem takeSpare_spec (h : Shape env s g) :
    Obtained env s g (takeSpare env s) := by
  unfold takeSpare
  cases hspare : s.dhcpSpare with
  | none => exact mallocRecord_spec h
  | some crecp =>
    obtain ⟨rest, hrest⟩ : ∃ rest, g.spare = crecp :: rest := by
      rw [h.spare.1] at hspare
      exact List.head?_eq_some_iff.mp hspare
    have hhold : Step env .plain (s, g) (_, _) := .holdSpare hrest
    exact .some (Steps.single Local.plain hhold) ⟨rfl, rfl, rfl, fun _ hmem ↦ .inl hmem⟩ rfl
      fun _ _ ↦ rfl

variable {rest : List Addr}

theorem Shape.filter_held (h : Shape env s g)
    (hheld : g.held = crecp :: rest) : g.held.filter (· ≠ crecp) = rest := by
  have hnodup := (List.nodup_append.mp h.outsideNodup).2.1
  rw [hheld] at hnodup ⊢
  have hnot := (List.nodup_cons.mp hnodup).1
  simp only [ne_eq, not_true_eq_false, decide_false, Bool.false_eq_true, not_false_eq_true,
    List.filter_cons_of_neg]
  exact List.filter_eq_self.mpr fun record hrecord ↦ by
    simpa using ne_of_mem_of_not_mem hrecord hnot

theorem steps_hashHeld (h : Shape env s g)
    (hheld : g.held = crecp :: rest) (hused : InUse (s.flags crecp))
    (hlocal : Meets (s.flags crecp) localFlags)
    (hlinked : .cname ∈ s.flags crecp → ∃ target, LinkedNow env s g crecp target) :
    ∃ g', Steps env Local (s, g) (cacheHash env s crecp, g') ∧
      LocalFrame env { g with held := rest } g' ∧
      ∀ record, (∃ i, record ∈ g'.chain i) ↔ (∃ i, record ∈ g.chain i) ∨ record = crecp := by
  have hmem : crecp ∈ g.held := by simp [hheld]
  have hle := h.le_of_mem_held hmem
  have hspare : crecp ∉ g.spare := fun hspare ↦
    (List.nodup_append.mp h.outsideNodup).2.2 crecp hspare crecp hmem rfl
  obtain ⟨chain, hstep, hchain⟩ := exists_step_hash h (h.out_of_held hmem) hused
    (h.outside crecp (List.mem_append_right _ hmem)).2 (fun _ ↦ hlocal)
    ⟨fun hfresh ↦ absurd (h.lt_of_mem_fresh hfresh) (Nat.not_lt.mpr hle), hspare⟩ (fun _ ↦ hlinked)
  refine ⟨_, Steps.single Local.plain hstep, ⟨rfl, rfl, h.filter_held hheld, ?_⟩, ?_⟩
  · exact fun record hrecord ↦ .inl (List.mem_filter.mp hrecord).1
  · intro record
    simp only [hchain, exists_or, exists_and_left, exists_eq, and_true]

/-! ### CNAMEs of the configuration -/

structure Grown (env : Env) (before after : Cache × Ghost) : Prop where
  steps : Steps env Local before after
  frame : LocalFrame env before.2 after.2
  hashed : ∀ record, (∃ i, record ∈ before.2.chain i) →
    (∃ i, record ∈ after.2.chain i) ∧ after.1.crec record = before.1.crec record

theorem Grown.refl (state : Cache × Ghost) : Grown env state state :=
  ⟨Steps.refl _, LocalFrame.refl _, fun _ hmem ↦ ⟨hmem, rfl⟩⟩

theorem Grown.trans {before middle after : Cache × Ghost} (hleft : Grown env before middle)
    (hright : Grown env middle after) : Grown env before after := by
  refine ⟨hleft.steps.trans hright.steps, hleft.frame.trans hright.frame, fun record hmem ↦ ?_⟩
  obtain ⟨hmem', hcrec⟩ := hleft.hashed record hmem
  obtain ⟨hmem'', hcrec'⟩ := hright.hashed record hmem'
  exact ⟨hmem'', hcrec'.trans hcrec⟩

structure GrownBy (env : Env) (Kind : Crec → Prop) (before after : Cache × Ghost) : Prop
    extends Grown env before after where
  added : ∀ record, after.2.Holds record → before.2.Holds record ∨ Kind (after.1.crec record)

section GrownBy

variable {Kind Other : Crec → Prop} {before middle after : Cache × Ghost}

theorem GrownBy.refl (state : Cache × Ghost) : GrownBy env Kind state state :=
  ⟨Grown.refl state, fun _ ↦ .inl⟩

theorem GrownBy.trans (hleft : GrownBy env Kind before middle)
    (hright : GrownBy env Kind middle after) :
    GrownBy env Kind before after := by
  refine ⟨hleft.toGrown.trans hright.toGrown, fun record hmem ↦ ?_⟩
  rcases hright.added record hmem with hmiddle | hkind
  · rw [(hright.hashed record hmiddle).2]
    exact hleft.added record hmiddle
  · exact .inr hkind

theorem GrownBy.mono (hkind : ∀ crec, Kind crec → Other crec) (h : GrownBy env Kind before after) :
    GrownBy env Other before after :=
  ⟨h.toGrown, fun record hmem ↦ (h.added record hmem).imp_right (hkind _)⟩

end GrownBy

structure CnameTarget (env : Env) (flags : Flags) (s : Cache) (g : Ghost) (target : Addr) :
    Prop where
  hashed : ∃ i, target ∈ g.chain i
  outside : env.cachesize ≤ target
  kind : flags ∩ localFlags = s.flags target ∩ localFlags

variable {flags : Flags}

theorem CnameTarget.grown {before after : Cache × Ghost} {target : Addr}
    (h : CnameTarget env flags before.1 before.2 target) (hgrown : Grown env before after) :
    CnameTarget env flags after.1 after.2 target := by
  obtain ⟨hmem, hcrec⟩ := hgrown.hashed target h.hashed
  refine ⟨hmem, h.outside, ?_⟩
  unfold Cache.flags
  rw [hcrec]
  exact h.kind

/-- A record that was obtained becomes a CNAME, and then it is one that another CNAME can stand for.
-/
theorem grown_cname {s s' : Cache} {g g' : Ghost} {crec target : Addr}
    (h : Shape env s g) (hsteps : Steps env Local (s, g) (s', g'))
    (hframe : LocalFrame env { g with held := crec :: g.held } g') (hchain : g'.chain = g.chain)
    (hcrec : ∀ record, (∃ i, record ∈ g.chain i) → s'.crec record = s.crec record)
    (hused : InUse flags) (hlocal : Meets flags localFlags) (htarget :
      CnameTarget env flags s g target)
    (aliasName : List UInt8) (ttd : ℤ → ℤ) :
    ∃ g'', GrownBy env (fun new ↦ new.flags = flags ∧ new.name = aliasName) (s, g)
        (cacheHash env ((s'.modify crec fun old ↦
          { cnameContents s' target aliasName flags old with ttd := ttd old.ttd }).renew crec) crec,
            g'') ∧
      CnameTarget env flags (cacheHash env ((s'.modify crec fun old ↦
          { cnameContents s' target aliasName flags old with ttd := ttd old.ttd }).renew crec) crec)
        g'' crec := by
  have hshape : Shape env s' g' := h.steps hsteps
  have hheld : g'.held = crec :: g.held := hframe.held
  have hmem : crec ∈ g'.held := by simp [hheld]
  have hout := hshape.out_of_held hmem
  obtain ⟨i, hi⟩ := htarget.hashed
  have hne : target ≠ crec := by
    rintro rfl
    exact hout i (by rw [hchain]; exact hi)
  rw [modify_renew]
  obtain ⟨contents, hcontents⟩ : ∃ contents, contents = ({ cnameContents s' target aliasName flags
    (s'.crec crec) with ttd := ttd (s'.crec crec).ttd, serial := s'.serials } : Crec) := ⟨_, rfl⟩
  obtain ⟨t, ht⟩ : ∃ t, t = { s' with
    crec := Function.update s'.crec crec contents, serials := s'.serials + 1 } := ⟨_, rfl⟩
  have hwrite : Step env .write (s', g') (t, g') := by
    rw [ht]
    exact .writeHeld hmem contents (Nat.le_succ _)
  have hown : t.crec crec = contents := by rw [ht]; exact Function.update_self _ _ _
  have hother : ∀ record, record ≠ crec → t.crec record = s'.crec record := by
    intro record hrecord
    rw [ht]
    exact Function.update_of_ne hrecord _ _
  have hflags : t.flags crec = flags := by
    unfold Cache.flags
    rw [hown, hcontents]
    rfl
  have hlinked : LinkedNow env t g' crec target := by
    have hsame := hother target hne
    refine ⟨?_, ⟨i, by rw [hchain]; exact hi⟩, htarget.outside, ?_, ?_, ?_, ?_⟩
    · rw [hown, hcontents]
      rfl
    · rw [hown, hsame, hcontents]
      rfl
    · rw [hown, hsame, hcontents]
      rfl
    · rw [hown, hsame, hcontents]
      rfl
    · have htargetFlags : t.flags target = s.flags target := by
        unfold Cache.flags
        rw [hsame, hcrec target htarget.hashed]
      rw [hflags, htargetFlags]
      exact htarget.kind
  obtain ⟨g'', hsteps', hframe', hchain'⟩ := steps_hashHeld (hshape.step hwrite) hheld
    (by rw [hflags]; exact hused) (by rw [hflags]; exact hlocal) fun _ ↦ ⟨target, hlinked⟩
  have hstate : { s' with
      crec := Function.update s'.crec crec
        { { cnameContents s' target aliasName flags (s'.crec crec) with
          ttd := ttd (s'.crec crec).ttd } with
          serial := s'.serials }
      serials := s'.serials + 1 } = t := by
    rw [ht, hcontents]
  rw [hstate]
  refine ⟨g'', ⟨⟨(hsteps.tail Local.write hwrite).trans hsteps', ⟨?_, ?_, ?_, ?_⟩, ?_⟩, ?_⟩, ?_, ?_,
    ?_⟩
  · rw [hframe'.fresh]
    exact hframe.fresh
  · rw [hframe'.loose]
    exact hframe.loose
  · exact hframe'.held
  · exact fun record hrecord ↦ (hframe'.unhashed record hrecord).elim (hframe.unhashed record) .inr
  · intro record hrecord
    have hne' : record ≠ crec := by
      rintro rfl
      obtain ⟨j, hj⟩ := hrecord
      exact hout j (by rw [hchain]; exact hj)
    refine ⟨(hchain' record).mpr (.inl (by rw [hchain]; exact hrecord)), ?_⟩
    show t.crec record = s.crec record
    rw [hother record hne', hcrec record hrecord]
  · intro record hrecord
    rcases (hchain' record).mp hrecord with hold | rfl
    · rw [hchain] at hold
      exact .inl hold
    · refine .inr ?_
      show (t.crec record).flags = flags ∧ (t.crec record).name = aliasName
      rw [hown, hcontents]
      exact ⟨rfl, rfl⟩
  · exact (hchain' crec).mpr (.inr rfl)
  · exact hshape.le_of_mem_held hmem
  · show flags ∩ localFlags = t.flags crec ∩ localFlags
    rw [hflags]

/-- The name of a CNAME of the configuration that leads to another name, over as many others as
there are. -/
def AliasOf (env : Env) : List UInt8 → List UInt8 → Prop :=
  Relation.TransGen fun name aliasName ↦
    ∃ a ∈ env.cnames, hostnameIsequal name a.target = true ∧ aliasName = a.aliasName

/-- The records that `add_hosts_cname` and `add_dhcp_cname` add. -/
theorem addCname_grown {allocate : Cache → Cache × Option Addr}
    (hallocate : ∀ {s : Cache} {g : Ghost}, Shape env s g → Obtained env s g (allocate s))
    (hused : InUse flags) (hlocal : Meets flags localFlags) (ttd : ℤ → ℤ) (fuel : ℕ) :
    ∀ {target : Addr} {s : Cache} {g : Ghost}, Shape env s g → CnameTarget env flags s g target →
      ∃ g', GrownBy env (fun new ↦ new.flags = flags ∧ AliasOf env (s.name target) new.name) (s, g)
        (addCname env allocate flags ttd fuel target s, g') := by
  induction fuel with
  | zero => exact fun _ _ ↦ ⟨_, GrownBy.refl _⟩
  | succ fuel ih =>
    intro target s₀ g₀ hshape₀ htarget₀
    unfold addCname
    -- the names that are left, and the name of the target, which stays
    have hloop : ∀ cnames : List Cname, (∀ a ∈ cnames, a ∈ env.cnames) → ∀ {s : Cache} {g : Ghost},
      Shape env s g →
        CnameTarget env flags s g target → s.name target = s₀.name target →
        ∃ g', GrownBy env (fun new ↦ new.flags = flags ∧ AliasOf env (s₀.name target) new.name)
          (s, g) (cnames.foldl
            (fun s a ↦
              if hostnameIsequal (s.name target) a.target then
                (allocate s).2.elim (allocate s).1 fun crec ↦
                  let s := ((allocate s).1.modify crec fun old ↦
                    { cnameContents (allocate s).1 target a.aliasName flags old with
                      ttd := ttd old.ttd }).renew crec
                  addCname env allocate flags ttd fuel crec (cacheHash env s crec)
              else s) s, g') := by
      intro cnames
      induction cnames with
      | nil => exact fun _ _ _ _ _ _ ↦ ⟨_, GrownBy.refl _⟩
      | cons a cnames ihCnames =>
        intro hsub s g hshape htarget hname
        have hrest := fun b hb ↦ hsub b (List.mem_cons_of_mem _ hb)
        have hsame : ∀ {after : Cache × Ghost}, Grown env (s, g) after →
          after.1.name target = s₀.name target := by
          intro after hgrown
          rw [← hname]
          unfold Cache.name
          rw [(hgrown.hashed target htarget.hashed).2]
        rw [List.foldl_cons]
        split_ifs with hequal
        · have hstep : AliasOf env (s₀.name target) a.aliasName :=
            .single ⟨a, hsub a List.mem_cons_self, by rw [← hname]; exact hequal, rfl⟩
          have hobtained := hallocate hshape
          cases hresult : allocate s with
          | mk s' found =>
            rw [hresult] at hobtained
            cases hobtained with
            | none hsteps hcrec =>
              have hgrown : Grown env (s, g) (s', g) :=
                ⟨hsteps, LocalFrame.refl g, fun record hmem ↦ ⟨hmem, by rw [hcrec]⟩⟩
              obtain ⟨g', hothers⟩ :=
                ihCnames hrest (hshape.steps hsteps) (htarget.grown hgrown) (hsame hgrown)
              exact ⟨g', GrownBy.trans ⟨hgrown, fun _ ↦ .inl⟩ hothers⟩
            | @some _ g' crec hsteps hframe hchain hcrec =>
              obtain ⟨g'', hgrown, hcname⟩ :=
                grown_cname hshape hsteps hframe hchain hcrec hused hlocal htarget a.aliasName ttd
              have hnew : GrownBy env (fun new ↦ new.flags = flags ∧
                AliasOf env (s₀.name target) new.name) _ _ :=
                hgrown.mono fun new hown ↦ ⟨hown.1, by rw [hown.2]; exact hstep⟩
              obtain ⟨g₃, hgrown'⟩ := ih (hshape.steps hgrown.steps) hcname
              have hown : (cacheHash env ((s'.modify crec fun old ↦
                  { cnameContents s' target a.aliasName flags old with ttd := ttd old.ttd }).renew
                    crec)
                  crec).name crec = a.aliasName := by
                simp [cacheHash, Cache.setLink, Cache.name, Cache.renew, Cache.modify,
                  cnameContents]
              rw [hown] at hgrown'
              have hboth := hnew.trans (hgrown'.mono fun new hdeep ↦ ⟨hdeep.1, hstep.trans hdeep.2⟩)
              obtain ⟨g₄, hothers⟩ :=
                ihCnames hrest (hshape.steps hboth.steps) (htarget.grown hboth.toGrown)
                (hsame hboth.toGrown)
              exact ⟨g₄, hboth.trans hothers⟩
        · exact ihCnames hrest hshape htarget hname
    obtain ⟨g', hgrown⟩ := hloop env.cnames (fun _ ha ↦ ha) hshape₀ htarget₀ rfl
    refine ⟨g', ?_⟩
    convert hgrown using 4 with s a
    rcases allocate s with ⟨s', _ | crec⟩ <;> rfl

/-! ### Hosts files -/

theorem steps_writeHeld (hmem : crecp ∈ g.held)
    (change : Crec → Crec) : Steps env Local (s, g) (s.modify crecp change, g) :=
  Steps.single Local.write (.writeHeld hmem _ (Nat.le_refl s.serials))

/-- The table of addresses changes the link or the flags of a record in hand. -/
theorem enterRevhash_steps {cache : Addr} (hle : env.cachesize ≤ cache)
    (hheld : cache ∈ g.held) (hspare : cache ∉ g.spare) (hforward : .forward ∈ s.flags cache)
    (hhosts : s.flags cache ∩ localFlags = {.hosts}) (hcname : .cname ∉ s.flags cache)
    (rhash : RevHash) (addr : List UInt8) :
    Steps env Local (s, g) ((enterRevhash env s rhash cache addr).1, g) ∧
      .forward ∈ (enterRevhash env s rhash cache addr).1.flags cache ∧
      (enterRevhash env s rhash cache addr).1.flags cache ∩ localFlags = {.hosts} ∧
      .cname ∉ (enterRevhash env s rhash cache addr).1.flags cache := by
  unfold enterRevhash
  dsimp only
  cases revhashFind s (s.flags cache) addr s.walkFuel (rhash (revhash env addr)) with
  | none => exact ⟨Steps.single Local.plain (.setNext hle hspare _), hforward, hhosts, hcname⟩
  | some _ =>
    have hwritten :
      (s.modify cache fun crec ↦ { crec with flags := crec.flags.erase .reverse }).flags
        cache = (s.flags cache).erase .reverse := by
      simp [Cache.flags, Cache.modify]
    dsimp only
    rw [hwritten]
    refine ⟨steps_writeHeld hheld _, by simpa using hforward, ?_, by simpa using hcname⟩
    rw [Finset.erase_inter, hhosts]
    decide

/-- A record of a hosts file in hand is hashed, with the CNAMEs for it, or freed. -/
theorem addHostsEntry_steps {cache : Addr} (h : Shape env s g)
    (hloose : g.loose = []) (hheld : g.held = cache :: rest) (hforward : .forward ∈ s.flags cache)
    (hhosts : s.flags cache ∩ localFlags = {.hosts}) (hcname : .cname ∉ s.flags cache)
    (rhash : RevHash) (addr : List UInt8) (index : ℕ) :
    ∃ g', Steps env Local (s, g) ((addHostsEntry env s rhash cache addr index).1, g') ∧
      LocalFrame env { g with held := rest } g' := by
  have hle := h.le_of_mem_held (show cache ∈ g.held by simp [hheld])
  obtain ⟨g₁, hsteps₁, hframe₁⟩ := @cacheFindByName_tidies env s none (s.name cache) 0
    (s.flags cache ∩ {.ipv4, .ipv6}) g h hloose
  unfold addHostsEntry
  generalize cacheFindByName env s none (s.name cache) 0 (s.flags cache ∩ {.ipv4, .ipv6}) = found
    at hsteps₁
  obtain ⟨t, lookup⟩ := found
  have hshape₁ : Shape env t g₁ := h.steps hsteps₁
  have hheld₁ : g₁.held = cache :: rest := hframe₁.held.trans hheld
  have hmem₁ : cache ∈ g₁.held := by simp [hheld₁]
  have hspare₁ : cache ∉ g₁.spare := fun hspare ↦
    (List.nodup_append.mp hshape₁.outsideNodup).2.2 cache hspare cache hmem₁ rfl
  have hcrec₁ : t.crec cache = s.crec cache := hsteps₁.crec_outside h (by simp [Plain]) hle
  have hflags₁ : t.flags cache = s.flags cache := by
    unfold Cache.flags
    rw [hcrec₁]
  have hlocal₁ := hsteps₁.mono Local.of_plain
  have hback : ∀ {g' : Ghost}, LocalFrame env { g₁ with held := rest } g' →
      LocalFrame env { g with held := rest } g' := fun hframe ↦
    ⟨hframe.fresh.trans hframe₁.fresh, hframe.loose.trans hframe₁.loose, hframe.held,
      fun record hrecord ↦ (hframe.unhashed record hrecord).elim (hframe₁.unhashed record) .inr⟩
  dsimp only
  split
  · -- the name has the address already
    have hdiscard : Step env .plain (t, g₁) (_, _) := .discard hmem₁
    rw [hshape₁.filter_held hheld₁] at hdiscard
    exact ⟨_, hlocal₁.tail Local.plain hdiscard, hback (LocalFrame.refl _)⟩
  · obtain ⟨hsteps₂, hforward₂, hhosts₂, hcname₂⟩ := enterRevhash_steps hle hmem₁ hspare₁
      (by rw [hflags₁]; exact hforward)
      (by rw [hflags₁]; exact hhosts) (by rw [hflags₁]; exact hcname)
      rhash addr
    generalize enterRevhash env t rhash cache addr = entered at hsteps₂ hforward₂ hhosts₂ hcname₂
    obtain ⟨t₂, rhash₂⟩ := entered
    obtain ⟨t₃, ht₃⟩ : ∃ t₃, t₃ = t₂.modify cache fun crec ↦
      { crec with uid := index, addr := addr } :=
      ⟨_, rfl⟩
    have hsteps₃ : Steps env Local (t₂, g₁) (t₃, g₁) := by
      rw [ht₃]
      exact steps_writeHeld hmem₁ _
    have hflags₃ : t₃.flags cache = t₂.flags cache := by
      rw [ht₃]
      simp [Cache.flags, Cache.modify]
    have hmeets : Meets (t₃.flags cache) localFlags := by
      unfold Meets
      rw [hflags₃, hhosts₂]
      exact Finset.singleton_nonempty _
    have hshape₃ : Shape env t₃ g₁ := (hshape₁.steps hsteps₂).steps hsteps₃
    obtain ⟨g₄, hsteps₄, hframe₄, hchain₄⟩ := steps_hashHeld hshape₃ hheld₁
      (by rw [hflags₃, inUse_iff]; exact .inl hforward₂) hmeets
      (by rw [hflags₃]; exact fun hmem ↦ absurd hmem hcname₂)
    have hall : Steps env Local (s, g) (cacheHash env t₃ cache, g₄) :=
      ((hlocal₁.trans hsteps₂).trans hsteps₃).trans hsteps₄
    rw [← ht₃]
    split
    · exact ⟨g₄, hall, hback hframe₄⟩
    · have htarget : CnameTarget env {.forward, .immortal, .namep, .hosts, .cname}
        (cacheHash env t₃ cache)
          g₄ cache := by
        refine ⟨(hchain₄ cache).mpr (.inr rfl), hle, ?_⟩
        show _ = t₃.flags cache ∩ localFlags
        rw [hflags₃, hhosts₂]
        decide
      obtain ⟨g₅, hgrown⟩ :=
        addCname_grown mallocRecord_spec (by decide) (by decide) (fun ttd ↦ ttd)
        (cnameDepth env) (h.steps hall) htarget
      exact ⟨g₅, hall.trans hgrown.steps, hback (hframe₄.trans hgrown.frame)⟩

theorem newHostsEntry_adds (s : Cache) (rhash : RevHash) (name addr : List UInt8)
    (hforward : .forward ∈ flags) (hhosts : flags ∩ localFlags = {.hosts}) (hcname : .cname ∉ flags)
    (index : ℕ) : Adds env s (newHostsEntry env s rhash name addr flags index).1.1 := by
  intro g hshape hloose
  have hobtained := mallocRecord_spec hshape
  unfold newHostsEntry
  cases hresult : mallocRecord env s with
  | mk s' found =>
    rw [hresult] at hobtained
    cases hobtained with
    | none hsteps _ => exact ⟨g, hsteps, LocalFrame.refl g⟩
    | @some _ g' cache hsteps hframe hchain hcrec =>
      have hmem : cache ∈ g'.held := by simp [hframe.held]
      have hwrite : Step env .write (s', g') (_, _) := .writeHeld hmem
        { s'.crec cache with flags := flags, name := name, serial := s'.serials } (Nat.le_succ _)
      obtain ⟨t, ht⟩ : ∃ t, t = { s' with
        crec := Function.update s'.crec cache
          { s'.crec cache with flags := flags, name := name, serial := s'.serials }
        serials := s'.serials + 1 } := ⟨_, rfl⟩
      have hflags : t.flags cache = flags := by
        rw [ht]
        simp [Cache.flags]
      dsimp only
      rw [modify_renew, ← ht]
      rw [← ht] at hwrite
      have hsteps' := hsteps.tail Local.write hwrite
      obtain ⟨g'', hadded, hframe'⟩ := addHostsEntry_steps (hshape.steps hsteps')
        (hframe.loose.trans hloose) hframe.held (by rw [hflags]; exact hforward)
        (by rw [hflags]; exact hhosts) (by rw [hflags]; exact hcname) rhash addr index
      refine ⟨g'', hsteps'.trans hadded,
        ⟨hframe'.fresh.trans hframe.fresh, hframe'.loose.trans hframe.loose, hframe'.held, ?_⟩⟩
      exact fun record hrecord ↦
        (hframe'.unhashed record hrecord).elim (hframe.unhashed record) .inr

theorem addName_adds (line : HostsLine) (index : ℕ) (reading : HostsReading) (name : List UInt8) :
    Adds env reading.cache (reading.addName env line index name).cache := by
  refine newHostsEntry_adds _ _ _ _ ?_ ?_ ?_ _
  · cases line.v6 <;> decide
  · cases line.v6 <;> decide
  · cases line.v6 <;> decide

theorem readHostsLine_adds (index : ℕ) (reading : HostsReading) (line : HostsLine) :
    Adds env reading.cache (readHostsLine env index reading line).cache := by
  refine Adds.trans ?_ (Adds.foldl HostsReading.cache _ (addName_adds line index) _ _)
  split_ifs
  · exact (rehash_tidies _ _).adds
  · exact Adds.refl _

theorem readHostsfile_adds (index cacheSize : ℕ) (file : Option (List HostsLine)) (s : Cache)
    (rhash : RevHash) : Adds env s (readHostsfile env index cacheSize file s rhash).1 := by
  cases file with
  | none => exact Adds.refl s
  | some lines =>
    exact (Adds.foldl HostsReading.cache _ (readHostsLine_adds index) lines
      ⟨s, rhash, cacheSize, cacheSize⟩).trans (rehash_tidies _ _).adds

theorem addHostRecord_adds (v6 : Bool) (addr : Option (List UInt8)) (name : List UInt8)
    (state : Cache × RevHash) : Adds env state.1 (addHostRecord env v6 addr name state).1 := by
  cases addr with
  | none => exact Adds.refl _
  | some addr =>
    refine newHostsEntry_adds _ _ _ _ ?_ ?_ ?_ _
    · cases v6 <;> decide
    · cases v6 <;> decide
    · cases v6 <;> decide

theorem addHostRecords_adds (hostRecords : List HostRecord) (state : Cache × RevHash) :
    Adds env state.1 (addHostRecords env hostRecords state).1 := by
  refine Adds.foldl Prod.fst _ (fun state hr ↦ ?_) hostRecords state
  refine Adds.foldl Prod.fst _ (fun state name ↦ ?_) hr.names state
  exact (addHostRecord_adds false hr.addr name state).trans
    (addHostRecord_adds true hr.addr6 name _)

theorem reloadFiles_adds (input : ReloadInput) (s : Cache) (rhash : RevHash) :
    Adds env s
      (input.files.foldl
        (fun (state : Cache × RevHash × ℕ) file ↦
          readHostsfile env file.1 state.2.2 file.2 state.1 state.2.1)
        ((addHostRecords env input.hostRecords (s, rhash)).1,
          (addHostRecords env input.hostRecords (s, rhash)).2, env.cachesize)).1 := by
  refine (addHostRecords_adds input.hostRecords (s, rhash)).trans ?_
  exact Adds.foldl (fun state : Cache × RevHash × ℕ ↦ state.1) _
    (fun state file ↦ readHostsfile_adds file.1 state.2.2 file.2 state.1 state.2.1) input.files
    ((addHostRecords env input.hostRecords (s, rhash)).1,
      (addHostRecords env input.hostRecords (s, rhash)).2, env.cachesize)

/-! ### The table is cleared -/

/-- Steps of the loop of `cache_reload` that clears the table. -/
def Clears (kind : Kind) : Prop := kind = .plain ∨ kind = .wipe ∨ kind = .release

theorem Clears.plain : Clears .plain := .inl rfl

theorem Clears.wipe : Clears .wipe := .inr (.inl rfl)

theorem Clears.release : Clears .release := .inr (.inr rfl)

theorem hashSize_reloadDrop (s : Cache) (crecp : Addr) :
    (reloadDrop s () crecp).1.hashSize = s.hashSize := by
  unfold reloadDrop
  split_ifs <;> rfl

theorem flags_reloadDrop_of_ne (s : Cache) {crecp record : Addr} (hne : record ≠ crecp) :
    (reloadDrop s () crecp).1.flags record = s.flags record := by
  unfold reloadDrop
  split_ifs
  · rfl
  · simp [Cache.flags, Cache.renew, Cache.modify, hne]
  · simp [Cache.flags, Cache.renew, Cache.modify, hne]

/-- `cache_reload` takes a record out of its chain: one of a hosts file is freed, and one of the
pool is given up where it is. -/
theorem reloadDrop_steps {i : ℕ} {front back : List Addr}
    (h : Shape env s g) (hloose : g.loose = []) (hchain : g.chain i = front ++ crecp :: back)
    (hverdict : .hosts ∈ s.flags crecp ∨ .dhcp ∉ s.flags crecp) :
    ∃ g', Steps env Clears (s, g)
        ((reloadDrop (s.setLink (lastSlot Slot.record (.bucket i) front) (s.hash (.record crecp)))
        ()
          crecp).1, g') ∧
      Frame env g g' ∧ g'.chain = Function.update g.chain i (front ++ back) := by
  have hmem : crecp ∈ g.chain i := by simp [hchain]
  have hdrop : Step env .plain (s, g) (_, _) := .drop hchain
  set t := s.setLink (lastSlot Slot.record (.bucket i) front) (s.hash (.record crecp)) with ht
  have hflags : t.flags crecp = s.flags crecp := rfl
  obtain ⟨dropped, hdropped⟩ : ∃ dropped : Ghost, dropped = { g with
    chain := Function.update g.chain i (front ++ back), unhashed := crecp :: g.unhashed } :=
      ⟨_, rfl⟩
  rw [← hdropped] at hdrop
  have hout : dropped.Out crecp := by
    rw [hdropped]
    exact h.out_of_drop hchain
  unfold reloadDrop
  rw [hflags]
  by_cases hhosts : Flag.hosts ∈ s.flags crecp
  · have hle := h.le_of_hashed hmem (meets_localFlags.mpr (.inl hhosts))
    have hapart := (h.member i crecp hmem).apart
    have hrelease : Step env .release (t, dropped) (freeRecord t crecp, dropped) :=
      .release hle hout
        (by rw [hdropped]; exact hapart.2.1) (by rw [hdropped]; exact hapart.2.2) hhosts
    rw [if_pos hhosts]
    refine ⟨dropped, (Steps.single Clears.plain hdrop).tail Clears.release hrelease, ?_, by
      rw [hdropped]⟩
    rw [hdropped]
    refine ⟨rfl, rfl, rfl, rfl, fun record hrecord ↦ ?_⟩
    rcases List.mem_cons.mp hrecord with rfl | hold
    · exact .inr hle
    · exact .inl hold
  · have hlocal : ¬ Meets (s.flags crecp) localFlags := by
      rw [meets_localFlags]
      grind
    have hlru : crecp ∈ dropped.lru := by
      rw [hdropped]
      exact h.mem_lru_of_hashed hloose hmem hlocal
    rw [if_neg hhosts]
    obtain ⟨u, hu⟩ : ∃ u, u = if .bigname ∈ s.flags crecp then { t with bigFree := t.bigFree + 1 }
      else t :=
      ⟨_, rfl⟩
    have hcount : Steps env Clears (t, dropped) (u, dropped) := by
      rw [hu]
      split_ifs
      · exact Steps.single Clears.plain (.counters _ _ _ _ (Nat.le_refl t.uid))
      · exact Steps.refl _
    have hwipe : Step env .wipe (u, dropped) (_, _) := .wipe hlru hout
    rw [← hu]
    refine ⟨_, ((Steps.single Clears.plain hdrop).trans hcount).tail Clears.wipe hwipe, ?_, by
      rw [hdropped]⟩
    rw [hdropped]
    refine ⟨rfl, rfl, rfl, rfl, fun record hrecord ↦ ?_⟩
    obtain ⟨hrecord, hne⟩ := List.mem_filter.mp hrecord
    rcases List.mem_cons.mp hrecord with rfl | hold
    · simp at hne
    · exact .inl hold

theorem reloadClear_steps (h : Shape env s g) (hloose : g.loose = []) :
    ∃ g', Steps env Clears (s, g) ((walkTable reloadVerdict keepRecord reloadDrop s ()).1, g') ∧
      Frame env g g' ∧ ∀ i, ∀ crecp ∈ g'.chain i,
        .dhcp ∈ (walkTable reloadVerdict keepRecord reloadDrop s ()).1.flags crecp ∧
        .hosts ∉ (walkTable reloadVerdict keepRecord reloadDrop s ()).1.flags crecp := by
  have hrule : WalkRule env Clears reloadVerdict keepRecord reloadDrop fun t g' _ kept ↦
      t.hashSize = s.hashSize ∧ Frame env g g' ∧
        ∀ crecp ∈ kept, .dhcp ∈ t.flags crecp ∧ .hosts ∉ t.flags crecp := by
    refine ⟨?_, ?_⟩
    · intro t g' value kept crecp i _ hinv _ hverdict
      refine ⟨g', Steps.refl _, rfl, hinv.1, hinv.2.1, fun record hrecord ↦ ?_⟩
      rcases List.mem_append.mp hrecord with hold | hnew
      · exact hinv.2.2 record hold
      · obtain rfl : record = crecp := by simpa using hnew
        unfold reloadVerdict at hverdict
        split_ifs at hverdict with hdrop
        rw [not_or, not_not] at hdrop
        exact ⟨hdrop.2, hdrop.1⟩
    · intro t g' value kept crecp i front back hshape hinv hchain hverdict
      unfold reloadVerdict at hverdict
      split_ifs at hverdict with hdrop
      obtain ⟨g'', hsteps, hframe, hchains⟩ :=
        reloadDrop_steps hshape (hinv.2.1.loose.trans hloose) hchain hdrop
      refine ⟨g'', hsteps, hchains, (hashSize_reloadDrop _ _).trans hinv.1, hinv.2.1.trans hframe,
        fun record hrecord ↦ ?_⟩
      have hkept := hinv.2.2 record hrecord
      have hne : record ≠ crecp := by
        rintro rfl
        exact hdrop.elim hkept.2 fun hnot ↦ hnot hkept.1
      rw [flags_reloadDrop_of_ne _ hne]
      exact hkept
  obtain ⟨g', kept, hsteps, hinv, hall⟩ := walkTable_spec hrule
    (fun hbefore hafter ↦ hafter.1.trans hbefore.1.symm) () h ⟨rfl, Frame.refl g, by simp⟩
  refine ⟨g', hsteps, hinv.2.1, fun i crecp hmem ↦ hinv.2.2 crecp (hall ?_ i crecp hmem)⟩
  intro t _ record
  unfold reloadVerdict
  split_ifs <;> simp

theorem cacheReload_steps (h : Shape env s g) (hloose : g.loose = [])
    (input : ReloadInput) :
    ∃ t g' g'', Steps env Clears (s, g) (t, g') ∧
      (∀ i, ∀ crecp ∈ g'.chain i, .dhcp ∈ t.flags crecp ∧ .hosts ∉ t.flags crecp) ∧
      Steps env Local (t, g') (cacheReload env s input, g'') ∧ Frame env g g' ∧
      LocalFrame env g' g'' := by
  obtain ⟨g', hsteps, hframe, hleases⟩ := reloadClear_steps h hloose
  obtain ⟨g'', hsteps', hframe'⟩ :=
    reloadFiles_adds input (walkTable reloadVerdict keepRecord reloadDrop s ()).1 (fun _ ↦ none) g'
      (h.steps hsteps) (hframe.loose.trans hloose)
  exact ⟨_, g', g'', hsteps, hleases, hsteps', hframe, hframe'⟩

/-! ### Leases -/

/-- Steps of `cache_unhash_dhcp`. -/
def Unhashes (kind : Kind) : Prop := kind = .plain ∨ kind = .retire

theorem Unhashes.plain : Unhashes .plain := .inl rfl

theorem Unhashes.retire : Unhashes .retire := .inr rfl

theorem cacheUnhashDhcp_steps (h : Shape env s g) :
    ∃ g', Steps env Unhashes (s, g) (cacheUnhashDhcp s, g') ∧ LocalFrame env g g' ∧
      (∀ crecp, g'.Holds crecp → g.Holds crecp) ∧
      ∀ i, ∀ crecp ∈ g'.chain i, .dhcp ∉ (cacheUnhashDhcp s).flags crecp := by
  have hrule : WalkRule env Unhashes
      (fun s (_ : Unit) cache ↦ if .dhcp ∈ s.flags cache then Verdict.drop else .keep) keepRecord
      (fun s value cache ↦
        ({ s with next := Function.update s.next cache s.dhcpSpare, dhcpSpare := some cache },
          value))
      fun t g' _ kept ↦ t.hashSize = s.hashSize ∧ LocalFrame env g g' ∧
        (∀ crecp, g'.Holds crecp → g.Holds crecp) ∧ ∀ crecp ∈ kept, .dhcp ∉ t.flags crecp := by
    refine ⟨?_, ?_⟩
    · intro t g' value kept crecp i _ hinv _ hverdict
      refine ⟨g', Steps.refl _, rfl, hinv.1, hinv.2.1, hinv.2.2.1, fun record hrecord ↦ ?_⟩
      rcases List.mem_append.mp hrecord with hold | hnew
      · exact hinv.2.2.2 record hold
      · obtain rfl : record = crecp := by simpa using hnew
        split_ifs at hverdict with hdhcp
        exact hdhcp
    · intro t g' value kept crecp i front back hshape hinv hchain hverdict
      split_ifs at hverdict with hdhcp
      have hmem : crecp ∈ g'.chain i := by simp [hchain]
      have hle := hshape.le_of_hashed hmem (meets_localFlags.mpr (.inr hdhcp))
      have hmember := hshape.member i crecp hmem
      have hdrop : Step env .plain (t, g') (_, _) := .drop hchain
      have hretire : Step env .retire
          (t.setLink (lastSlot Slot.record (.bucket i) front) (t.hash (.record crecp)),
            { g' with
              chain := Function.update g'.chain i (front ++ back),
                unhashed := crecp :: g'.unhashed })
          (_, _) :=
        .retire hle hmember.live (hshape.out_of_drop hchain) hmember.apart.2.1 hmember.apart.2.2
          hdhcp
      refine ⟨_, (Steps.single Unhashes.plain hdrop).tail Unhashes.retire hretire, rfl, hinv.1,
        hinv.2.1.trans ⟨rfl, rfl, rfl, fun record hrecord ↦ ?_⟩, ?_, hinv.2.2.2⟩
      · rcases List.mem_cons.mp hrecord with rfl | hold
        · exact .inr hle
        · exact .inl hold
      · refine fun record hrecord ↦ hinv.2.2.1 record (hrecord.of_update rfl fun other hother ↦ ?_)
        rw [hchain]
        simp only [List.mem_append, List.mem_cons] at hother ⊢
        grind
  obtain ⟨g', kept, hsteps, hinv, hall⟩ := walkTable_spec hrule
    (fun hbefore hafter ↦ hafter.1.trans hbefore.1.symm) () h
    ⟨rfl, LocalFrame.refl g, fun _ hmem ↦ hmem, by simp⟩
  refine ⟨g', hsteps, hinv.2.1, hinv.2.2.1, fun i crecp hmem ↦
    hinv.2.2.2 crecp (hall ?_ i crecp hmem)⟩
  intro t _ record
  split_ifs <;> simp

theorem checkHostName_sweeps (hostName addr : List UInt8) (flags : Flags) (fuel : ℕ) :
    ∀ (crecp : Option Addr) (s : Cache) (found : Bool × Bool),
      Sweeps env s (checkHostName env hostName addr flags fuel crecp s found).1 := by
  induction fuel with
  | zero => exact fun _ s _ ↦ Sweeps.refl s
  | succ fuel ih =>
    rintro crecp s ⟨inHosts, failed⟩
    have hfind := @cacheFindByName_sweeps env s crecp hostName 0 (insert .cname flags)
    unfold checkHostName
    generalize cacheFindByName env s crecp hostName 0 (insert .cname flags) = found at hfind
    obtain ⟨t, answer⟩ := found
    cases answer with
    | none => exact hfind
    | some crec =>
      dsimp only
      split_ifs
      · exact hfind.trans (ih _ _ _)
      · exact hfind.trans (ih _ _ _)
      · exact hfind.trans (ih _ _ _)
      · exact hfind.trans (ih _ _ _)
      · exact hfind.trans (cacheScanFree_sweeps _ _ _ _ _)

theorem leaseReverse_sweeps (s : Cache) (addr : List UInt8) (flags : Flags) :
    Sweeps env s (leaseReverse env s addr flags).1 := by
  have hfind := @cacheFindByAddr_sweeps env s none addr 0 flags
  unfold leaseReverse
  generalize cacheFindByAddr s none addr 0 flags = found at hfind
  obtain ⟨t, answer⟩ := found
  cases answer with
  | none => exact hfind
  | some crec =>
    dsimp only
    split_ifs
    · exact hfind.trans (cacheScanFree_sweeps _ _ _ _ _)
    · exact hfind

theorem leaseReverse_flags (s : Cache) (addr : List UInt8) (flags : Flags) :
    (leaseReverse env s addr flags).2 = flags ∨
      (leaseReverse env s addr flags).2 = insert .reverse flags := by
  unfold leaseReverse
  split
  · exact .inr rfl
  · split_ifs
    · exact .inr rfl
    · exact .inl rfl

theorem leaseFlags_spec (hforward : .forward ∈ flags)
    (hlocal : flags ∩ localFlags = {.dhcp}) (ttd : ℤ) :
    .forward ∈ leaseFlags flags ttd ∧ leaseFlags flags ttd ∩ localFlags = {.dhcp} ∧
      (.cname ∈ leaseFlags flags ttd ↔ .cname ∈ flags) := by
  unfold leaseFlags
  split_ifs
  · refine ⟨by simp [hforward], ?_, by simp⟩
    rw [Finset.insert_inter_of_notMem (by decide), hlocal]
  · exact ⟨hforward, hlocal, Iff.rfl⟩

def leaseType (v6 : Bool) : Flags := if v6 then {.ipv6} else {.ipv4}

/-- The part of `cache_add_dhcp_entry` that adds the records. -/
def addLease (env : Env) (s : Cache) (hostName addr : List UInt8) (ttd : ℤ) (flags : Flags) :
    Cache :=
  match takeSpare env s with
  | (s, none) => s
  | (s, some crec) =>
    let s := (s.modify crec fun old ↦
      { old with
        flags := leaseFlags (flags ∪ {.namep, .dhcp, .forward}) ttd
        ttd := if ttd = 0 then old.ttd else ttd
        addr := addr
        name := hostName
        uid := s.uid }).renew crec
    addDhcpCname env ttd (cnameDepth env) crec (cacheHash env { s with uid := s.uid + 1 } crec)

/-- The records of a lease: the entry of its name, and the CNAMEs that lead to it. -/
def LeaseRecord (env : Env) (hostName : List UInt8) (ttd : ℤ) (flags : Flags) (new : Crec) : Prop :=
  new.flags = leaseFlags (flags ∪ {.namep, .dhcp, .forward}) ttd ∧ new.name = hostName ∨
    new.flags = leaseFlags {.forward, .namep, .dhcp, .cname} ttd ∧ AliasOf env hostName new.name

theorem addLease_grown (hshape : Shape env s g) (hostName addr : List UInt8) (ttd : ℤ)
    {v6 : Bool} (hflags : flags ⊆ leaseType v6 ∪ {.reverse}) :
    ∃ g', GrownBy env (LeaseRecord env hostName ttd flags) (s, g)
      (addLease env s hostName addr ttd flags, g') := by
  have hobtained := takeSpare_spec hshape
  unfold addLease
  generalize takeSpare env s = taken at hobtained
  cases hobtained with
  | none hsteps hcrec =>
    exact ⟨g, ⟨hsteps, LocalFrame.refl g, fun _ hmem ↦ ⟨hmem, by rw [hcrec]⟩⟩, fun _ ↦ .inl⟩
  | @some v g₂ crec hsteps hframe hchain hcrec =>
    have hmem : crec ∈ g₂.held := by simp [hframe.held]
    have hnot : ∀ {flag : Flag}, flag ∉ ({.ipv4, .ipv6, .reverse} : Flags) → flag ∉ flags := by
      intro flag hflag hin
      refine hflag (Finset.mem_of_subset ?_ (hflags hin))
      cases v6 <;> decide
    obtain ⟨hforward, hdhcp, hcname⟩ :=
      @leaseFlags_spec (flags ∪ {.namep, .dhcp, .forward}) (by simp) (by
      ext flag
      have hhosts := @hnot .hosts (by decide)
      have hlease := @hnot .dhcp (by decide)
      cases flag <;> simp [localFlags, hhosts]) ttd
    have hplain : .cname ∉ leaseFlags (flags ∪ {.namep, .dhcp, .forward}) ttd := by
      rw [hcname]
      simp [@hnot .cname (by decide)]
    unfold LeaseRecord
    generalize leaseFlags (flags ∪ {.namep, .dhcp, .forward}) ttd =
      entryFlags at hforward hdhcp hplain
    dsimp only
    rw [modify_renew]
    obtain ⟨contents, hcontents⟩ : ∃ contents, contents = ({ v.crec crec with
      flags := entryFlags, ttd := if ttd = 0 then (v.crec crec).ttd else ttd, addr := addr
      name := hostName, uid := v.uid, serial := v.serials } : Crec) := ⟨_, rfl⟩
    obtain ⟨w, hw⟩ : ∃ w, w = { v with
      crec := Function.update v.crec crec contents, serials := v.serials + 1, uid := v.uid + 1 } :=
      ⟨_, rfl⟩
    have hwrite : Step env .write (v, g₂) (_, _) := .writeHeld hmem contents (Nat.le_succ _)
    have hcount : Step env .plain
        ({ v with crec := Function.update v.crec crec contents, serials := v.serials + 1 },
          g₂) (w, g₂) := by
      rw [hw]
      exact .counters v.insertError v.bigFree v.bignamesLeft v.mallocs (Nat.le_succ v.uid)
    have hentry : w.flags crec = entryFlags ∧ w.name crec = hostName := by
      rw [hw]
      simp [Cache.flags, Cache.name, hcontents]
    have hbefore : Steps env Local (s, g) (w, g₂) :=
      (hsteps.tail Local.write hwrite).tail Local.plain hcount
    have hout := (hshape.steps hsteps).out_of_held hmem
    obtain ⟨g₃, hsteps₃, hframe₃, hchain₃⟩ := steps_hashHeld (hshape.steps hbefore) hframe.held
      (by rw [hentry.1, inUse_iff]; exact .inl hforward)
      (by rw [hentry.1]; unfold Meets; rw [hdhcp]; exact Finset.singleton_nonempty _)
      (by rw [hentry.1]; exact fun hmem ↦ absurd hmem hplain)
    -- the entry
    have hfirst : GrownBy env (fun new ↦ new.flags = entryFlags ∧ new.name = hostName) (s, g)
        (cacheHash env w crec, g₃) := by
      refine ⟨⟨hbefore.trans hsteps₃, ?_, fun record hrecord ↦ ⟨?_, ?_⟩⟩, fun record hrecord ↦ ?_⟩
      · refine ⟨hframe₃.fresh.trans hframe.fresh, hframe₃.loose.trans hframe.loose,
          hframe₃.held, ?_⟩
        exact fun record hrecord ↦
          (hframe₃.unhashed record hrecord).elim (hframe.unhashed record) .inr
      · refine (hchain₃ record).mpr (.inl ?_)
        rw [hchain]
        exact hrecord
      · have hne : record ≠ crec := by
          rintro rfl
          obtain ⟨i, hi⟩ := hrecord
          exact hout i (by rw [hchain]; exact hi)
        show w.crec record = s.crec record
        rw [hw, ← hcrec record hrecord]
        exact Function.update_of_ne hne _ _
      · rcases (hchain₃ record).mp hrecord with hold | rfl
        · rw [hchain] at hold
          exact .inl hold
        · exact .inr hentry
    -- the CNAMEs
    obtain ⟨hcforward, hcdhcp, -⟩ := @leaseFlags_spec {.forward, .namep, .dhcp, .cname}
      (by decide) (by decide) ttd
    have htarget : CnameTarget env (leaseFlags {.forward, .namep, .dhcp, .cname} ttd)
        (cacheHash env w crec) g₃ crec := by
      refine ⟨(hchain₃ crec).mpr (.inr rfl), (hshape.steps hbefore).le_of_mem_held hmem, ?_⟩
      show _ = w.flags crec ∩ localFlags
      rw [hcdhcp, hentry.1, hdhcp]
    obtain ⟨g₄, hgrown⟩ := addCname_grown takeSpare_spec (inUse_iff.mpr (.inl hcforward))
      (by unfold Meets; rw [hcdhcp]; exact Finset.singleton_nonempty _)
      (fun old ↦ if ttd = 0 then old else ttd) (cnameDepth env) (hshape.steps hfirst.steps) htarget
    rw [show (cacheHash env w crec).name crec = hostName from hentry.2] at hgrown
    rw [← hcontents, ← hw]
    exact ⟨g₄, (hfirst.mono fun _ ↦ .inl).trans (hgrown.mono fun _ ↦ .inr)⟩

/-- `cache_add_dhcp_entry` looks for the name, decides about the reverse entry and adds the records.
-/
theorem cacheAddDhcpEntry_eq (s : Cache) (hostName : List UInt8) (v6 : Bool) (addr : List UInt8)
    (ttd : ℤ) :
    cacheAddDhcpEntry env s hostName v6 addr ttd =
      let checked :=
      checkHostName env hostName addr (leaseType v6) (s.walkFuel + 1) none s (false, false)
      let reversed := leaseReverse env checked.1 addr (leaseType v6)
      if checked.2.1 ∨ checked.2.2 then
        checked.1 else addLease env reversed.1 hostName addr ttd reversed.2 := rfl

theorem leaseReverse_subset (s : Cache) (addr : List UInt8) (v6 : Bool) :
    (leaseReverse env s addr (leaseType v6)).2 ⊆ leaseType v6 ∪ {.reverse} := by
  rcases leaseReverse_flags s addr (leaseType v6) with heq | heq
  · rw [heq]
    exact Finset.subset_union_left
  · rw [heq, Finset.union_comm]
    exact Finset.Subset.refl _

theorem cacheAddDhcpEntry_adds (s : Cache) (hostName : List UInt8) (v6 : Bool) (addr : List UInt8)
    (ttd : ℤ) : Adds env s (cacheAddDhcpEntry env s hostName v6 addr ttd) := by
  have hcheck :=
    @checkHostName_sweeps env hostName addr (leaseType v6) (s.walkFuel + 1) none s (false, false)
  rw [cacheAddDhcpEntry_eq]
  dsimp only
  split_ifs
  · exact hcheck.tidies.adds
  · intro g hshape hloose
    obtain ⟨g₁, hsteps, hswept⟩ :=
      (hcheck.trans (leaseReverse_sweeps _ addr (leaseType v6))) g hshape hloose
    obtain ⟨g₂, hgrown⟩ :=
      addLease_grown (hshape.steps hsteps) hostName addr ttd (leaseReverse_subset _ addr v6)
    exact ⟨g₂, (hsteps.mono Local.of_plain).trans hgrown.steps,
      hswept.toFrame.toLocal.trans hgrown.frame⟩

end CrossBreeder.Dnsmasq
