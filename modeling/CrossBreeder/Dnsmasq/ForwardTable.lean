import CrossBreeder.Dnsmasq.Forwarding
import Mathlib.Data.Finset.Prod

/-!
# The table of the forwarder

`FrecsInv` is what all calls of `forward.c` keep: the counts of the shared sockets are right, a free
record has no socket, the table has at most one record more than its limit, and no two records in
use have the same id and the same questions.

`tableAccounted_of_reachable` is the result for all runs.
-/

namespace CrossBreeder.Dnsmasq

open Foundation

namespace ForwardState

variable (s : ForwardState) (number : ℕ) (f : Frec)

@[simp] theorem setFrec_self : (s.setFrec number f).frec number = f := Function.update_self _ _ _

@[simp] theorem setFrec_of_ne {n : ℕ} (hn : n ≠ number) : (s.setFrec number f).frec n = s.frec n :=
  Function.update_of_ne hn _ _

@[simp] theorem setFrec_frecs : (s.setFrec number f).frecs = s.frecs := rfl

@[simp] theorem setFrec_servers : (s.setFrec number f).servers = s.servers := rfl

@[simp] theorem setFrec_log : (s.setFrec number f).log = s.log := rfl

@[simp] theorem setFrec_serials : (s.setFrec number f).serials = s.serials := rfl

end ForwardState

def holders (s : ForwardState) : Finset (ℕ × Family) := Finset.range s.frecs ×ˢ {.inet, .inet6}

def holds (s : ForwardState) (holder : ℕ × Family) : Option ℕ := (s.frec holder.1).rfd holder.2

def Live (s : ForwardState) (current : Option ℕ) (number : ℕ) : Prop :=
  (s.frec number).sentto.isSome ∨ current = some number

structure FrecsInv (env : ForwardEnv) (s : ForwardState) (current : Option ℕ) : Prop where
  accounts : Accounts s.randomsocks (holders s) (holds s)
  family : ∀ number < s.frecs, ∀ family i, (s.frec number).rfd family = some i →
    (s.randomsocks.slots i).tag = family
  bound : ∀ i, (s.randomsocks.slots i).count ≤ 0xffff
  idle : ∀ number < s.frecs, ¬Live s current number → ∀ family, (s.frec number).rfd family = none
  size : s.frecs ≤ env.ftabsize + 1
  distinct : ∀ m < s.frecs, ∀ n < s.frecs, m ≠ n → Live s current m → Live s current n →
    ((s.frec m).newId, (s.frec m).crc) ≠ ((s.frec n).newId, (s.frec n).crc)
  listed : ∀ number < s.frecs, ∀ server, (s.frec number).sentto = some server → server ∈ s.servers

variable {s : ForwardState}

theorem mem_holders {number : ℕ} (h : number < s.frecs) (family : Family) :
    (number, family) ∈ holders s := by
  cases family <;> simp [holders, h]

variable {family : Family}

theorem mem_referring {number i : ℕ} :
    (number, family) ∈ (holders s).filter (fun holder ↦ holds s holder = some i) ↔
      number < s.frecs ∧ (s.frec number).rfd family = some i := by
  rw [Finset.mem_filter]
  constructor
  · rintro ⟨hmem, hrfd⟩
    exact ⟨Finset.mem_range.mp (Finset.mem_product.mp hmem).1, hrfd⟩
  · rintro ⟨hlt, hrfd⟩
    exact ⟨mem_holders hlt family, hrfd⟩

@[simp] theorem rfd_setRfd_self (f : Frec) (family : Family) (i : Option ℕ) :
    (f.setRfd family i).rfd family = i := by
  cases family <;> rfl

theorem rfd_setRfd_of_ne (f : Frec) {family other : Family} (h : other ≠ family) (i : Option ℕ) :
    (f.setRfd family i).rfd other = f.rfd other := by
  cases family <;> cases other <;> first | rfl | exact absurd rfl h

theorem holds_setRfd (s : ForwardState) (number : ℕ) (family : Family) (i : Option ℕ) :
    holds (s.setFrec number ((s.frec number).setRfd family i)) = Function.update (holds s)
      (number, family) i := by
  funext ⟨other, kind⟩
  unfold holds ForwardState.setFrec
  by_cases hnumber : other = number
  · subst hnumber
    by_cases hkind : kind = family
    · subst hkind
      simp
    · rw [Function.update_of_ne (by simp [hkind])]
      simp [rfd_setRfd_of_ne _ hkind]
  · rw [Function.update_of_ne (by simp [hnumber])]
    simp [hnumber]

variable {servers : List Server}

variable {next : ForwardState}

section Table

variable {env : ForwardEnv} {s : ForwardState} {current : Option ℕ} {number : ℕ}

theorem FrecsInv.frame (h : FrecsInv env s current) {s' : ForwardState}
    (hservers : s'.servers = s.servers) (hfrecs : s'.frecs = s.frecs) (hfrec : s'.frec = s.frec)
    (hsocks : s'.randomsocks = s.randomsocks) :
    FrecsInv env s' current := by
  have hholders : holders s' = holders s := by rw [holders, holders, hfrecs]
  have hholds : holds s' = holds s := by
    unfold holds
    rw [hfrec]
  have hlive : ∀ n, Live s' current n ↔ Live s current n := fun n ↦ by rw [Live, Live, hfrec]
  refine ⟨?_, ?_, ?_, ?_, ?_, ?_, ?_⟩
  · rw [hholders, hholds, hsocks]
    exact h.accounts
  · rw [hfrecs, hfrec, hsocks]
    exact h.family
  · rw [hsocks]
    exact h.bound
  · simp only [hfrecs, hfrec, hlive]
    exact h.idle
  · rw [hfrecs]
    exact h.size
  · simp only [hfrecs, hfrec, hlive]
    exact h.distinct
  · rw [hfrecs, hfrec, hservers]
    exact h.listed

theorem FrecsInv.begin (h : FrecsInv env s none) (huse : (s.frec number).sentto.isSome) :
    FrecsInv env s (some number) := by
  have hlive : ∀ n, Live s (some number) n ↔ Live s none n := fun n ↦ by
    constructor
    · rintro (hin | heq)
      · exact .inl hin
      · obtain rfl := Option.some.inj heq
        exact .inl huse
    · rintro (hin | heq)
      · exact .inl hin
      · exact absurd heq (by simp)
  refine ⟨h.accounts, h.family, h.bound, fun n hn hnot ↦ ?_, h.size, fun m hm n hn hne hm' hn' ↦ ?_,
    h.listed⟩
  · exact h.idle n hn fun hin ↦ hnot ((hlive n).mpr hin)
  · exact h.distinct m hm n hn hne ((hlive m).mp hm') ((hlive n).mp hn')

theorem FrecsInv.finish (h : FrecsInv env s (some number))
    (hdone : (s.frec number).sentto.isSome ∨ ∀ family, (s.frec number).rfd family = none) :
    FrecsInv env s none := by
  have hlive : ∀ n, Live s none n → Live s (some number) n := fun n hin ↦
    hin.imp_right fun heq ↦ absurd heq (by simp)
  refine ⟨h.accounts, h.family, h.bound, fun n hn hnot family ↦ ?_, h.size,
    fun m hm n hn hne hm' hn' ↦ ?_, h.listed⟩
  · by_cases heq : n = number
    · subst heq
      exact hdone.elim (fun hin ↦ absurd (.inl hin) hnot) fun hnone ↦ hnone family
    · refine h.idle n hn (fun hin ↦ hin.elim (fun hin ↦ hnot (.inl hin)) fun hcurrent ↦ ?_) family
      exact heq (Option.some.inj hcurrent).symm
  · exact h.distinct m hm n hn hne (hlive m hm') (hlive n hn')

/-- A record is changed in what the invariant does not look at, or in whether it is in use while it
is worked on. -/
theorem FrecsInv.setFrec (h : FrecsInv env s current) {f : Frec}
    (hrfd : ∀ family, f.rfd family = (s.frec number).rfd family)
    (hid : f.newId = (s.frec number).newId) (hcrc : f.crc = (s.frec number).crc)
    (hlive : current = some number ∨ f.sentto = (s.frec number).sentto)
    (hlisted : ∀ server, f.sentto = some server → (s.frec number).sentto = some server ∨
      server ∈ s.servers) :
    FrecsInv env (s.setFrec number f) current := by
  have hfrec : ∀ n, ((s.setFrec number f).frec n).newId = (s.frec n).newId ∧
      ((s.setFrec number f).frec n).crc = (s.frec n).crc ∧
      (∀ family, ((s.setFrec number f).frec n).rfd family = (s.frec n).rfd family) ∧
      (Live (s.setFrec number f) current n ↔ Live s current n) := by
    intro n
    unfold Live ForwardState.setFrec
    by_cases hn : n = number
    · subst hn
      simp only [Function.update_self, hid, hcrc, true_and]
      refine ⟨hrfd, ?_⟩
      rcases hlive with hcurrent | hsame
      · simp [hcurrent]
      · rw [hsame]
    · simp [hn]
  have hholds : holds (s.setFrec number f) = holds s := by
    funext ⟨n, family⟩
    exact (hfrec n).2.2.1 family
  refine ⟨?_, fun n hn family i hi ↦ ?_, h.bound, fun n hn hnot family ↦ ?_, h.size,
    fun m hm n hn hne hlive hlive' ↦ ?_, fun n hn server hserver ↦ ?_⟩
  · rw [hholds]
    exact h.accounts
  · rw [(hfrec n).2.2.1] at hi
    exact h.family n hn family i hi
  · rw [(hfrec n).2.2.1]
    exact h.idle n hn (fun hlive ↦ hnot ((hfrec n).2.2.2.mpr hlive)) family
  · rw [(hfrec m).1, (hfrec m).2.1, (hfrec n).1, (hfrec n).2.1]
    exact h.distinct m hm n hn hne ((hfrec m).2.2.2.mp hlive) ((hfrec n).2.2.2.mp hlive')
  · by_cases heq : n = number
    · subst heq
      exact (hlisted server
        (by simpa [ForwardState.setFrec] using hserver)).elim (h.listed n hn server) id
    · exact h.listed n hn server (by simpa [ForwardState.setFrec, heq] using hserver)

theorem FrecsInv.setRfd (h : FrecsInv env s current) {pool : HandlePool Family} {i : Option ℕ}
    (haccounts : Accounts pool (holders s) (Function.update (holds s) (number, family) i))
    (htag : ∀ j, 0 < (s.randomsocks.slots j).count →
      (pool.slots j).tag = (s.randomsocks.slots j).tag)
    (hfamily : ∀ j, i = some j → (pool.slots j).tag = family)
    (hbound : ∀ j, (pool.slots j).count ≤ 0xffff) (hlive : i = none ∨ Live s current number) :
    FrecsInv env { s with
      randomsocks := pool
      frec := Function.update s.frec number ((s.frec number).setRfd family i) } current := by
  have hsame : ∀ n, ((Function.update s.frec number ((s.frec number).setRfd family i) n).newId =
    (s.frec n).newId) ∧
      (Function.update s.frec number ((s.frec number).setRfd family i) n).crc = (s.frec n).crc ∧
      (Function.update s.frec number ((s.frec number).setRfd family i) n).sentto =
        (s.frec n).sentto := by
    intro n
    by_cases hn : n = number
    · subst hn
      cases family <;> simp [Frec.setRfd]
    · simp [hn]
  have hlive' : ∀ n, Live { s with
      randomsocks := pool
      frec := Function.update s.frec number ((s.frec number).setRfd family i) } current n ↔
        Live s current n :=
    fun n ↦ by rw [Live, Live, (hsame n).2.2]
  refine ⟨?_, fun n hn other j hj ↦ ?_, hbound, fun n hn hnot other ↦ ?_, h.size,
    fun m hm n hn hne hm' hn' ↦ ?_, fun n hn server hserver ↦ ?_⟩
  · exact (holds_setRfd s number family i).symm ▸ haccounts
  · have hplace := congrFun (holds_setRfd s number family i) (n, other)
    rw [Function.update_apply] at hplace
    split_ifs at hplace with hown
    · obtain ⟨-, rfl⟩ := Prod.mk.inj hown
      exact hfamily j (hplace.symm.trans hj)
    · have hold : (s.frec n).rfd other = some j := hplace.symm.trans hj
      rw [htag j ?_, h.family n hn other j hold]
      rw [h.accounts.count]
      exact references_pos (mem_holders hn other) hold
  · have hplace := congrFun (holds_setRfd s number family i) (n, other)
    rw [Function.update_apply] at hplace
    rw [hlive'] at hnot
    split_ifs at hplace with hown
    · obtain ⟨rfl, rfl⟩ := Prod.mk.inj hown
      exact hplace.trans (hlive.resolve_right hnot)
    · exact hplace.trans (h.idle n hn hnot other)
  · dsimp only
    rw [(hsame m).1, (hsame m).2.1, (hsame n).1, (hsame n).2.1]
    exact h.distinct m hm n hn hne ((hlive' m).mp hm') ((hlive' n).mp hn')
  · exact h.listed n hn server ((hsame n).2.2.symm.trans hserver)

theorem FrecsInv.freeRfd (h : FrecsInv env s current) (hnumber : number < s.frecs)
    (family : Family) : FrecsInv env (s.freeRfd number family) current := by
  unfold ForwardState.freeRfd
  cases hrfd : (s.frec number).rfd family with
  | none => exact h
  | some i =>
    have htag : ∀ j, ((s.randomsocks.release i).slots j).tag = (s.randomsocks.slots j).tag ∧
        ((s.randomsocks.release i).slots j).count ≤ (s.randomsocks.slots j).count := fun j ↦ by
      unfold HandlePool.release
      by_cases hj : j = i
      · simp [hj]
      · simp [hj]
    exact h.setRfd (h.accounts.release (mem_holders hnumber family) hrfd) (fun j _ ↦
      (htag j).1) (by simp) (fun j ↦ (htag j).2.trans (h.bound j)) (.inl rfl)

theorem frec_freeRfd_of_ne {n : ℕ} (hn : n ≠ number) (family : Family) :
    (s.freeRfd number family).frec n = s.frec n := by
  unfold ForwardState.freeRfd
  cases (s.frec number).rfd family with
  | none => rfl
  | some i => exact Function.update_of_ne hn _ _

theorem frec_freeRfd_self (family : Family) :
    (s.freeRfd number family).frec number = (s.frec number).setRfd family none := by
  unfold ForwardState.freeRfd
  cases hrfd : (s.frec number).rfd family with
  | none => cases family <;> simp_all [Frec.setRfd, Frec.rfd, ← hrfd]
  | some i => exact Function.update_self _ _ _

theorem freeRfd_fields (family : Family) : (s.freeRfd number family).frecs = s.frecs ∧
    (s.freeRfd number family).servers = s.servers ∧ (s.freeRfd number family).log = s.log ∧
    (s.freeRfd number family).serials = s.serials := by
  unfold ForwardState.freeRfd
  cases (s.frec number).rfd family <;> exact ⟨rfl, rfl, rfl, rfl⟩

@[simp] theorem freeFrec_frecs : (s.freeFrec number).frecs = s.frecs :=
  (freeRfd_fields _).1.trans (freeRfd_fields _).1

@[simp] theorem freeFrec_servers : (s.freeFrec number).servers = s.servers :=
  (freeRfd_fields _).2.1.trans (freeRfd_fields _).2.1

@[simp] theorem freeFrec_log : (s.freeFrec number).log = s.log :=
  (freeRfd_fields _).2.2.1.trans (freeRfd_fields _).2.2.1

@[simp] theorem freeFrec_serials : (s.freeFrec number).serials = s.serials :=
  (freeRfd_fields _).2.2.2.trans (freeRfd_fields _).2.2.2

theorem frec_freeFrec_of_ne {n : ℕ} (hn : n ≠ number) : (s.freeFrec number).frec n = s.frec n := by
  unfold ForwardState.freeFrec
  rw [frec_freeRfd_of_ne hn, ForwardState.setFrec_of_ne _ _ _ hn]
  exact frec_freeRfd_of_ne hn _

theorem frec_freeFrec_self : (s.freeFrec number).frec number =
    { s.frec number with
      sentto := none, rfd4 := none, rfd6 := none, norebind := false,
      checkingDisabled := false } := by
  unfold ForwardState.freeFrec
  rw [frec_freeRfd_self, ForwardState.setFrec_self, frec_freeRfd_self]
  rfl

theorem FrecsInv.freeFrec (h : FrecsInv env s current) (hnumber : number < s.frecs)
    (hcurrent : current = some number ∨ current = none ∧ (s.frec number).sentto.isSome) :
    FrecsInv env (s.freeFrec number) none := by
  have hbegin : FrecsInv env s (some number) := by
    rcases hcurrent with rfl | ⟨rfl, huse⟩
    · exact h
    · exact h.begin huse
  have hfreed : FrecsInv env (s.freeFrec number) (some number) := by
    refine FrecsInv.freeRfd ?_ ?_ _
    · exact (hbegin.freeRfd hnumber .inet).setFrec (fun family ↦
        by cases family <;> rfl) rfl rfl (.inl rfl) (by simp)
    · exact Nat.lt_of_lt_of_eq hnumber (freeRfd_fields _).1.symm
  refine hfreed.finish (.inr fun family ↦ ?_)
  rw [frec_freeFrec_self]
  cases family <;> rfl

theorem FrecsInv.allocateFrec (h : FrecsInv env s none) (hroom : s.frecs ≤ env.ftabsize) (now : ℤ) :
    FrecsInv env (s.allocateFrec now) none := by
  have hnew : ((s.allocateFrec now).frec s.frecs).sentto = none ∧
      ∀ family, ((s.allocateFrec now).frec s.frecs).rfd family = none := by
    dsimp only [ForwardState.allocateFrec]
    rw [Function.update_self]
    exact ⟨rfl, fun family ↦ by cases family <;> rfl⟩
  have hold : ∀ n < s.frecs, (s.allocateFrec now).frec n = s.frec n := fun n hn ↦
    Function.update_of_ne (Nat.ne_of_lt hn) _ _
  have hcases : ∀ n < (s.allocateFrec now).frecs, n < s.frecs ∨ n = s.frecs := fun n hn ↦
    Nat.lt_succ_iff_lt_or_eq.mp hn
  have hlive : ∀ n, n < s.frecs ∨ n = s.frecs → Live (s.allocateFrec now) none n → n < s.frecs ∧
    Live s none n := by
    rintro n (hn | rfl) hin
    · refine ⟨hn, ?_⟩
      unfold Live at hin ⊢
      rwa [hold n hn] at hin
    · simp [Live, hnew.1] at hin
  refine ⟨h.accounts.of_counts (fun j ↦ ?_) (fun j ↦ Iff.rfl) (fun _ _ ↦ rfl) (fun _ _ hsome ↦
    hsome), fun n hn family i hi ↦ ?_, h.bound, fun n hn hnot family ↦ ?_, Nat.succ_le_succ hroom,
    fun m hm n hn hne hm' hn' ↦ ?_, fun n hn server hserver ↦ ?_⟩
  · rw [h.accounts.count]
    refine congrArg Finset.card ?_
    ext ⟨n, family⟩
    rw [mem_referring, mem_referring]
    constructor
    · rintro ⟨hn, hi⟩
      exact ⟨Nat.lt_succ_of_lt hn, by rwa [hold n hn]⟩
    · rintro ⟨hn, hi⟩
      rcases hcases n hn with hn | rfl
      · exact ⟨hn, by rwa [hold n hn] at hi⟩
      · exact absurd (hi.symm.trans (hnew.2 family)) (by simp)
  · rcases hcases n hn with hn | rfl
    · exact h.family n hn family i (by rwa [hold n hn] at hi)
    · exact absurd (hi.symm.trans (hnew.2 family)) (by simp)
  · rcases hcases n hn with hn | rfl
    · rw [hold n hn]
      refine h.idle n hn (fun hin ↦ hnot ?_) family
      unfold Live at hin ⊢
      rwa [hold n hn]
    · exact hnew.2 family
  · obtain ⟨hm, hlivem⟩ := hlive m (hcases m hm) hm'
    obtain ⟨hn, hliven⟩ := hlive n (hcases n hn) hn'
    rw [hold m hm, hold n hn]
    exact h.distinct m hm n hn hne hlivem hliven
  · rcases hcases n hn with hn | rfl
    · exact h.listed n hn server (by rwa [hold n hn] at hserver)
    · exact absurd (hserver.symm.trans hnew.1) (by simp)

/-! ### Records for new queries -/

/-- What the loop of `get_new_frec` knows: a record to use is free, and without one the oldest
record is in use. -/
structure Scanned (s : ForwardState) (target oldest : Option ℕ) : Prop where
  free : ∀ t, target = some t → t < s.frecs ∧ (s.frec t).sentto = none
  used : ∀ o, oldest = some o → o < s.frecs ∧ (target = none → (s.frec o).sentto.isSome)

theorem scanFrecs_spec (now : ℤ) (numbers : List ℕ) :
    ∀ {s : ForwardState} {target oldest : Option ℕ},
    FrecsInv env s none → (∀ n ∈ numbers, n < s.frecs) → Scanned s target oldest →
    let result := s.scanFrecs now numbers target oldest
    FrecsInv env result.1 none ∧ result.1.frecs = s.frecs ∧
      Scanned result.1 result.2.1 result.2.2 := by
  induction numbers with
  | nil => exact fun h _ hscanned ↦ ⟨h, rfl, hscanned⟩
  | cons number rest ih =>
    intro s target oldest h hnumbers hscanned
    have hnumber := hnumbers number List.mem_cons_self
    have hrest : ∀ n ∈ rest, n < s.frecs := fun n hn ↦ hnumbers n (List.mem_cons_of_mem _ hn)
    unfold ForwardState.scanFrecs
    split_ifs with hfree hold
    · refine ih h hrest ⟨?_, fun o ho ↦ ⟨(hscanned.used o ho).1, by simp⟩⟩
      rintro t ht
      obtain rfl := Option.some.inj ht
      exact ⟨hnumber, Option.isNone_iff_eq_none.mp hfree⟩
    · -- the record is too old
      have huse : (s.frec number).sentto.isSome :=
        Option.isSome_iff_ne_none.mpr (by simpa using hfree)
      have hchosen : ∀ older : Bool,
          Scanned (s.freeFrec number) (some number) (if older then some number else oldest) := by
        refine fun older ↦ ⟨fun t ht ↦ ?_, fun o ho ↦ ⟨?_, by simp⟩⟩
        · obtain rfl := Option.some.inj ht
          exact ⟨by simpa using hnumber, by rw [frec_freeFrec_self]⟩
        · rw [freeFrec_frecs]
          split_ifs at ho
          · exact Option.some.inj ho ▸ hnumber
          · exact (hscanned.used o ho).1
      obtain ⟨hinv, hfrecs, hresult⟩ :=
        ih (h.freeFrec hnumber (.inr ⟨rfl, huse⟩)) (by simpa using hrest) (hchosen _)
      exact ⟨hinv, hfrecs.trans freeFrec_frecs, hresult⟩
    · have huse : (s.frec number).sentto.isSome :=
        Option.isSome_iff_ne_none.mpr (by simpa using hfree)
      refine ih h hrest ⟨hscanned.free, fun o ho ↦ ?_⟩
      split_ifs at ho
      · obtain rfl := Option.some.inj ho
        exact ⟨hnumber, fun _ ↦ huse⟩
      · exact hscanned.used o ho

theorem FrecsInv.getNewFrec (h : FrecsInv env s none) (net : Net) (now : ℤ) (wait : Bool) :
    FrecsInv env (s.getNewFrec env net now wait).1 none ∧
    (wait = false → ∀ number, (s.getNewFrec env net now wait).2 = some number →
      number < (s.getNewFrec env net now wait).1.frecs ∧
        ((s.getNewFrec env net now wait).1.frec number).sentto = none) := by
  have htouch : ∀ {s : ForwardState} {number : ℕ}, FrecsInv env s none → number < s.frecs →
      (s.frec number).sentto = none → FrecsInv env (s.touchFrec number now) none ∧
        number < (s.touchFrec number now).frecs ∧
          ((s.touchFrec number now).frec number).sentto = none := by
    intro s number h hnumber hfree
    exact ⟨h.setFrec (fun family ↦
      by cases family <;> rfl) rfl rfl (.inr rfl) fun server hserver ↦ .inl hserver,
      hnumber, by simpa [ForwardState.touchFrec] using hfree⟩
  obtain ⟨hinv, -, hscanned⟩ := scanFrecs_spec now s.frecList h (by simp [ForwardState.frecList])
    (⟨by simp, by simp⟩ : Scanned s none none)
  unfold ForwardState.getNewFrec
  generalize s.scanFrecs now s.frecList none none = result at hinv hscanned
  obtain ⟨s', _ | target, oldest⟩ := result
  · dsimp only at hinv hscanned ⊢
    have hallocate : s'.frecs ≤ env.ftabsize → FrecsInv env (s'.allocateFrec now) none ∧
        s'.frecs < (s'.allocateFrec now).frecs ∧
          ((s'.allocateFrec now).frec s'.frecs).sentto = none := by
      intro hroom
      refine ⟨hinv.allocateFrec hroom now, Nat.lt_succ_self _, ?_⟩
      simp [ForwardState.allocateFrec]
    unfold ForwardState.replaceFrec
    split
    · next o ho =>
      obtain ⟨hnumber, huse⟩ := hscanned.used o (Option.filter_eq_some_iff.mp ho).1
      split_ifs with hroom hwait
      · obtain ⟨hnew, hlt, hfree⟩ := hallocate hroom.2.1
        exact ⟨hnew, fun _ number hnumber ↦ Option.some.inj hnumber ▸ ⟨hlt, hfree⟩⟩
      · exact ⟨hinv, fun hno ↦ absurd hwait (by simp [hno])⟩
      · have hfreed := hinv.freeFrec hnumber (.inr ⟨rfl, huse rfl⟩)
        obtain ⟨hnew, hlt, hfree⟩ :=
          htouch hfreed (by simpa using hnumber) (by rw [frec_freeFrec_self])
        exact ⟨hnew, fun _ number hnumber ↦ Option.some.inj hnumber ▸ ⟨hlt, hfree⟩⟩
    · split_ifs with hfull hmalloc
      · exact ⟨hinv, by simp⟩
      · obtain ⟨hnew, hlt, hfree⟩ := hallocate (Nat.not_lt.mp hfull)
        exact ⟨hnew, fun _ number hnumber ↦ Option.some.inj hnumber ▸ ⟨hlt, hfree⟩⟩
      · exact ⟨hinv, by simp⟩
  · obtain ⟨hlt, hfree⟩ := hscanned.free target rfl
    obtain ⟨hnew, hlt, hfree⟩ := htouch hinv hlt hfree
    exact ⟨hnew, fun _ number hnumber ↦ Option.some.inj hnumber ▸ ⟨hlt, hfree⟩⟩

theorem newId_fresh {net : Net} {crc : UInt32} {newId : UInt16} (hid : s.getId net crc = some newId)
    {n : ℕ} (hn : n < s.frecs) (huse : (s.frec n).sentto.isSome) :
    ((s.frec n).newId, (s.frec n).crc) ≠ (newId, crc) := by
  have hnone : s.lookupFrec newId crc = none := by simpa using List.find?_some hid
  intro heq
  obtain ⟨hnewId, hcrc⟩ := Prod.mk.inj heq
  have hmem : n ∈ s.frecList := by simpa [ForwardState.frecList] using hn
  have hno := List.find?_eq_none.mp hnone n hmem
  simp [huse, hnewId, hcrc] at hno

theorem FrecsInv.fillFrec (h : FrecsInv env s none) (hfree : (s.frec number).sentto = none)
    (client : Client) (packet : Packet) (crc : UInt32) (newId : UInt16) (norebind : Bool)
    (hfresh : ∀ n < s.frecs, (s.frec n).sentto.isSome →
      ((s.frec n).newId, (s.frec n).crc) ≠ (newId, crc)) :
    FrecsInv env (fillFrec s number client packet crc newId norebind) (some number) := by
  have hown : ((Dnsmasq.fillFrec s number client packet crc newId norebind).frec number).newId =
    newId ∧
      ((Dnsmasq.fillFrec s number client packet crc newId norebind).frec number).crc = crc ∧
      ((Dnsmasq.fillFrec s number client packet crc newId norebind).frec number).sentto = none ∧
      ∀ family, ((Dnsmasq.fillFrec s number client packet crc newId norebind).frec number).rfd
        family = (s.frec number).rfd family := by
    simp only [Dnsmasq.fillFrec, ForwardState.setFrec_self, hfree, true_and]
    exact fun family ↦ by cases family <;> rfl
  have hother : ∀ n, n ≠ number →
    (Dnsmasq.fillFrec s number client packet crc newId norebind).frec n = s.frec n :=
    fun n hn ↦ Function.update_of_ne hn _ _
  have hrfd : ∀ n family, ((Dnsmasq.fillFrec s number client packet crc newId norebind).frec n).rfd
    family =
      (s.frec n).rfd family := fun n family ↦ by
    by_cases hn : n = number
    · rw [hn]
      exact hown.2.2.2 family
    · rw [hother n hn]
  have hholds : holds (Dnsmasq.fillFrec s number client packet crc newId norebind) = holds s :=
    funext fun holder ↦ hrfd holder.1 holder.2
  -- a record that is live was in use before, or is the one that is prepared
  have hlive : ∀ n, Live (Dnsmasq.fillFrec s number client packet crc newId norebind)
    (some number) n →
      n ≠ number → (s.frec n).sentto.isSome := fun n hin hn ↦ by
    rcases hin with hin | heq
    · rwa [hother n hn] at hin
    · exact absurd (Option.some.inj heq).symm hn
  refine ⟨?_, fun n hn family i hi ↦ ?_, h.bound, fun n hn hnot family ↦ ?_, h.size,
    fun m hm n hn hne hm' hn' ↦ ?_, fun n hn server hserver ↦ ?_⟩
  · exact hholds.symm ▸ h.accounts
  · exact h.family n hn family i ((hrfd n family).symm.trans hi)
  · have hne : n ≠ number := fun heq ↦ hnot (.inr (by rw [heq]))
    rw [hrfd]
    refine h.idle n hn (fun hin ↦ hnot (.inl ?_)) family
    rw [hother n hne]
    exact hin.resolve_right (by simp)
  · by_cases hmn : m = number
    · have hnn : n ≠ number := fun heq ↦ hne (hmn.trans heq.symm)
      rw [hmn, hown.1, hown.2.1, hother n hnn]
      exact (hfresh n hn (hlive n hn' hnn)).symm
    · by_cases hnn : n = number
      · rw [hnn, hown.1, hown.2.1, hother m hmn]
        exact hfresh m hm (hlive m hm' hmn)
      · rw [hother m hmn, hother n hnn]
        exact h.distinct m hm n hn hne (.inl (hlive m hm' hmn)) (.inl (hlive n hn' hnn))
  · by_cases heq : n = number
    · rw [heq, hown.2.2.1] at hserver
      exact absurd hserver (by simp)
    · rw [hother n heq] at hserver
      exact h.listed n hn server hserver

/-! ### Sockets -/

theorem FrecsInv.shareRfd (h : FrecsInv env s current) (hnumber : number < s.frecs)
    (hnone : (s.frec number).rfd family = none) (hlive : Live s current number) :
    FrecsInv env ((s.shareRfd family).1.setFrec number
      (((s.shareRfd family).1.frec number).setRfd family (s.shareRfd family).2)) current := by
  unfold ForwardState.shareRfd
  cases hshared : s.sharedSock family with
  | none =>
    have hsame : (s.frec number).setRfd family none = s.frec number := by
      cases family <;> simp_all [Frec.setRfd, Frec.rfd, ← hnone]
    rw [hsame]
    exact h.setFrec (fun _ ↦ rfl) rfl rfl (.inr rfl) fun server hserver ↦ .inl hserver
  | some j =>
    have htest := List.find?_some hshared
    simp only [ne_eq, decide_eq_true_eq] at htest
    obtain ⟨hused, htag, hroom⟩ := htest
    have hslots : ∀ k, ((s.randomsocks.share j).slots k).tag = (s.randomsocks.slots k).tag ∧
        ((s.randomsocks.share j).slots k).count =
          (s.randomsocks.slots k).count + if k = j then 1 else 0 := fun k ↦ by
      unfold HandlePool.share
      by_cases hk : k = j
      · simp [hk]
      · simp [hk]
    refine FrecsInv.frame
      (h.setRfd (h.accounts.share (mem_holders hnumber family) hnone (Nat.pos_of_ne_zero hused))
      (fun k _ ↦ (hslots k).1) (fun k hk ↦ ?_) (fun k ↦ ?_) (.inr hlive)) rfl rfl rfl rfl
    · obtain rfl := Option.some.inj hk
      exact (hslots j).1.trans htag
    · have hbound := h.bound k
      rw [(hslots k).2]
      split_ifs with hk
      · subst hk
        omega
      · exact hbound

theorem FrecsInv.allocateRfd (h : FrecsInv env s current) (net : Net) (hnumber : number < s.frecs)
    (hnone : (s.frec number).rfd family = none) (hlive : Live s current number) :
    FrecsInv env ((s.allocateRfd net family).1.setFrec number
      (((s.allocateRfd net family).1.frec number).setRfd family (s.allocateRfd net family).2))
      current := by
  unfold ForwardState.allocateRfd
  cases hsock : s.freeSock with
  | none => exact h.shareRfd hnumber hnone hlive
  | some i =>
    have hfree : (s.randomsocks.slots i).count = 0 := by simpa using List.find?_some hsock
    split_ifs
    · refine FrecsInv.frame
        (h.setRfd (h.accounts.openSlot (mem_holders hnumber family) hnone hfree family)
        (fun j hj ↦ ?_) (fun j hj ↦ ?_) (fun j ↦ ?_) (.inr hlive)) rfl rfl rfl rfl
      · have hij : j ≠ i := fun heq ↦ by simp [heq, hfree] at hj
        simp [HandlePool.openSlot, hij]
      · obtain rfl := Option.some.inj hj
        simp [HandlePool.openSlot]
      · by_cases hij : j = i
        · simp [HandlePool.openSlot, hij]
        · simpa [HandlePool.openSlot, hij] using h.bound j
    · have hfailed : FrecsInv env { s with randomsocks := s.randomsocks.failSlot i } current := by
        have hslots : ∀ j, ((s.randomsocks.failSlot i).slots j).tag = (s.randomsocks.slots j).tag ∧
            ((s.randomsocks.failSlot i).slots j).count = (s.randomsocks.slots j).count := fun j ↦ by
          unfold HandlePool.failSlot
          by_cases hij : j = i
          · simp [hij]
          · simp [hij]
        exact ⟨h.accounts.failSlot hfree, fun n hn other j hj ↦
          (hslots j).1.trans (h.family n hn other j hj),
          fun j ↦ (hslots j).2.trans_le (h.bound j), h.idle, h.size, h.distinct, h.listed⟩
      exact hfailed.shareRfd hnumber hnone hlive

theorem allocateRfd_fields (net : Net) (family : Family) :
    (s.allocateRfd net family).1.frecs = s.frecs ∧
    (s.allocateRfd net family).1.servers = s.servers ∧ (s.allocateRfd net family).1.frec = s.frec ∧
    (s.allocateRfd net family).1.log = s.log ∧
      (s.allocateRfd net family).1.serials = s.serials := by
  have hshare : ∀ s : ForwardState, (s.shareRfd family).1.frecs = s.frecs ∧
      (s.shareRfd family).1.servers = s.servers ∧ (s.shareRfd family).1.frec = s.frec ∧
      (s.shareRfd family).1.log = s.log ∧ (s.shareRfd family).1.serials = s.serials := by
    intro s
    unfold ForwardState.shareRfd
    cases s.sharedSock family <;> exact ⟨rfl, rfl, rfl, rfl, rfl⟩
  unfold ForwardState.allocateRfd
  cases s.freeSock with
  | none => exact hshare s
  | some i =>
    split_ifs
    · exact ⟨rfl, rfl, rfl, rfl, rfl⟩
    · exact hshare _

/-- What `serverSocket` does to a record: it may get a socket. -/
theorem serverSocket_fields (net : Net) (server : Server) :
    (serverSocket net s number server).1.frecs = s.frecs ∧
      (serverSocket net s number server).1.servers = s.servers ∧
    (serverSocket net s number server).1.log = s.log ∧
      (serverSocket net s number server).1.serials = s.serials ∧
    (∀ n ≠ number, (serverSocket net s number server).1.frec n = s.frec n) ∧
    ∃ rfd4 rfd6, (serverSocket net s number server).1.frec number =
      { s.frec number with rfd4 := rfd4, rfd6 := rfd6 } := by
  unfold serverSocket
  split_ifs
  · exact ⟨rfl, rfl, rfl, rfl, fun _ _ ↦ rfl, _, _, rfl⟩
  · obtain ⟨hfrecs, hservers, hfrec, hlog, hserials⟩ :=
      allocateRfd_fields (s := s) net server.addr.family
    refine ⟨hfrecs, hservers, hlog, hserials, fun n hn ↦ ?_, ?_⟩
    · rw [ForwardState.setFrec_of_ne _ _ _ hn, hfrec]
    · rw [ForwardState.setFrec_self, hfrec]
      cases server.addr.family <;> exact ⟨_, _, rfl⟩

theorem FrecsInv.serverSocket (h : FrecsInv env s (some number)) (net : Net)
    (hnumber : number < s.frecs) (server : Server) :
    FrecsInv env (serverSocket net s number server).1 (some number) := by
  unfold Dnsmasq.serverSocket
  split_ifs with hthere
  · exact h
  · rw [not_or] at hthere
    exact h.allocateRfd net hnumber (by simpa using hthere.2) (.inr rfl)

/-! ### Queries and replies -/

/-- The rule for the loop that sends: what holds before each server, and what holds at the end. -/
theorem sendLoop_rule (before after : ForwardState → Bool → Prop) (net : Net) (number : ℕ)
    (type : UInt16) (domain : List UInt8) (packet : Packet) (servers : List Server)
    (hsocket : ∀ s forwarded, ∀ server ∈ servers, before s forwarded →
      before (serverSocket net s number server).1 forwarded)
    (hone : ∀ s forwarded, ∀ server ∈ servers, before s forwarded → (s.frec number).forwardall = 0 →
      after (sentTo s number server packet) true)
    (hmany : ∀ s forwarded, ∀ server ∈ servers, before s forwarded →
      (s.frec number).forwardall ≠ 0 → before ((sentTo s number server packet).setFrec number
        { (sentTo s number server packet).frec number with forwardall :=
  (s.frec number).forwardall + 1 }) true)
    (hend : ∀ s forwarded, before s forwarded → after s forwarded) :
    ∀ s forwarded, before s forwarded →
      after (sendLoop net number type domain packet servers s forwarded).1
        (sendLoop net number type domain packet servers s forwarded).2 := by
  induction servers with
  | nil => exact hend
  | cons server rest ih =>
    intro s forwarded h
    have hnext :=
      ih (fun s forwarded other hother ↦ hsocket s forwarded other (List.mem_cons_of_mem _ hother))
      (fun s forwarded other hother ↦ hone s forwarded other (List.mem_cons_of_mem _ hother))
      fun s forwarded other hother ↦ hmany s forwarded other (List.mem_cons_of_mem _ hother)
    have hopen := hsocket s forwarded server List.mem_cons_self h
    unfold sendLoop
    by_cases hdeals : server.deals type domain = true
    · rw [if_pos hdeals]
      generalize serverSocket net s number server = result at hopen
      obtain ⟨opened, _ | _⟩ := result
      · exact hend _ _ hopen
      · have hsame : ((sentTo opened number server packet).frec number).forwardall =
            (opened.frec number).forwardall := by
          simp [sentTo, ForwardState.note]
        dsimp only at hopen ⊢
        rw [hsame]
        split_ifs with hsend hall
        · exact hone opened forwarded server List.mem_cons_self hopen hall
        · exact hnext _ _ (hmany opened forwarded server List.mem_cons_self hopen hall)
        · exact hnext _ _ hopen
    · rw [if_neg hdeals]
      exact hnext _ _ h

theorem FrecsInv.sentTo (h : FrecsInv env s (some number)) {server : Server}
    (hserver : server ∈ s.servers) (packet : Packet) : FrecsInv env (sentTo s number server packet)
      (some number) := by
  refine FrecsInv.frame (h.setFrec (f := { s.frec number with sentto := some server })
    (fun family ↦ by cases family <;> rfl) rfl rfl (.inl rfl) fun other hother ↦ ?_) rfl rfl rfl rfl
  exact .inr (Option.some.inj hother ▸ hserver)

theorem FrecsInv.sendLoop (h : FrecsInv env s (some number)) (net : Net)
    (hnumber : number < s.frecs) (type : UInt16) (domain : List UInt8) (packet : Packet)
    (hservers : servers ⊆ s.servers) :
    let result := sendLoop net number type domain packet servers s false
    FrecsInv env result.1 (some number) ∧ number < result.1.frecs ∧
      (result.2 = true → (result.1.frec number).sentto.isSome) := by
  let property := fun (state : ForwardState) (forwarded : Bool) ↦ FrecsInv env state (some number) ∧
    number < state.frecs ∧ state.servers = s.servers ∧
      (forwarded = true → (state.frec number).sentto.isSome)
  have hsent : ∀ state forwarded, ∀ server ∈ servers, property state forwarded →
      property (Dnsmasq.sentTo state number server packet) true := by
    rintro state forwarded server hserver ⟨hinv, hlt, hsame, -⟩
    refine ⟨hinv.sentTo (hsame ▸ hservers hserver) packet, hlt, hsame, fun _ ↦ ?_⟩
    simp [Dnsmasq.sentTo, ForwardState.note]
  have hrun := sendLoop_rule property property net number type domain packet servers ?_
    (fun state forwarded server hserver hbefore _ ↦ hsent state forwarded server hserver hbefore) ?_
    (fun _ _ hbefore ↦ hbefore) s false ⟨h, hnumber, rfl, by simp⟩
  · exact ⟨hrun.1, hrun.2.1, hrun.2.2.2⟩
  · rintro state forwarded server - ⟨hinv, hlt, hsame, huse⟩
    obtain ⟨hfrecs, hservers', -, -, -, rfd4, rfd6, hfrec⟩ :=
      @serverSocket_fields state number net server
    refine ⟨hinv.serverSocket net hlt server, hfrecs.symm ▸ hlt, hservers'.trans hsame,
      fun hforwarded ↦ ?_⟩
    rw [hfrec]
    exact huse hforwarded
  · intro state forwarded server hserver hbefore _
    obtain ⟨hinv, hlt, hsame, huse⟩ := hsent state forwarded server hserver hbefore
    refine ⟨hinv.setFrec (fun family ↦
      by cases family <;> rfl) rfl rfl (.inr rfl) fun server hserver ↦ .inl hserver,
      hlt, hsame, fun hforwarded ↦ ?_⟩
    simpa using huse hforwarded

theorem FrecsInv.note (h : FrecsInv env s current) (event : ForwardEvent) :
    FrecsInv env (s.note event) current :=
  h.frame rfl rfl rfl rfl

theorem FrecsInv.answerLocally (h : FrecsInv env s current) (client : Option Client)
    (record : Option (ℕ × UInt32)) (id : UInt16) (packet : Packet) (plen : ℕ)
    (flags : LocalAnswer) :
    FrecsInv env (answerLocally env s client record id packet plen flags) current := by
  unfold Dnsmasq.answerLocally
  split
  · exact h.note _
  · exact h

theorem FrecsInv.sendQuery (h : FrecsInv env s (some number)) (net : Net)
    (hnumber : number < s.frecs) (client : Option Client) (packet : Packet) (plen : ℕ)
    (hservers : servers ⊆ s.servers) (type : UInt16) (domain : List UInt8) :
    FrecsInv env (sendQuery env net s client packet plen number servers type domain) none := by
  unfold Dnsmasq.sendQuery
  dsimp only
  generalize addMac net client packet plen = sent
  obtain ⟨hinv, hlt, huse⟩ := h.sendLoop net hnumber type domain sent.1 hservers
  generalize Dnsmasq.sendLoop net number type domain sent.1 servers s false =
    result at hinv hlt huse
  obtain ⟨last, _ | _⟩ := result
  · exact (hinv.freeFrec hlt (.inl rfl)).answerLocally _ _ _ _ _ _
  · exact hinv.finish (.inl (huse rfl))

theorem serversFrom_subset (servers : List Server) (start : Server) :
    serversFrom servers start ⊆ servers := by
  intro server hserver
  rcases List.mem_append.mp hserver with hmem | hmem
  · exact (List.dropWhile_sublist _).mem hmem
  · exact (List.takeWhile_sublist _).mem hmem

theorem serversAfter_subset {sentto : Server} (hsentto : sentto ∈ servers) :
    serversAfter servers sentto ⊆ servers := by
  intro server hserver
  rcases List.mem_append.mp hserver with hmem | hmem
  · rcases List.mem_append.mp hmem with hmem | hmem
    · exact (List.dropWhile_sublist _).mem (List.mem_of_mem_tail hmem)
    · exact (List.takeWhile_sublist _).mem hmem
  · exact List.mem_singleton.mp hmem ▸ hsentto

theorem askAll_fields :
    (askAll env s number).servers = s.servers ∧ (askAll env s number).frecs = s.frecs ∧
    (askAll env s number).log = s.log ∧ (askAll env s number).serials = s.serials := by
  unfold askAll
  split_ifs <;> exact ⟨rfl, rfl, rfl, rfl⟩

theorem FrecsInv.askAll (h : FrecsInv env s current) :
    FrecsInv env (askAll env s number) current := by
  unfold Dnsmasq.askAll
  split_ifs
  · exact h
  · exact (h.setFrec (f := { s.frec number with forwardall := 1 }) (fun family ↦
      by cases family <;> rfl) rfl rfl
      (.inr rfl) fun server hserver ↦ .inl hserver).frame rfl rfl rfl rfl

theorem FrecsInv.retryQuery (h : FrecsInv env s none) (net : Net) (hnumber : number < s.frecs)
    (client : Option Client) (packet : Packet) (plen : ℕ) :
    FrecsInv env (retryQuery env net s client packet plen number) none := by
  unfold Dnsmasq.retryQuery
  cases hsentto : (s.frec number).sentto with
  | none => exact h
  | some sentto =>
    have hbegin := @FrecsInv.begin _ _ number h (by rw [hsentto]; rfl)
    obtain ⟨hservers, hfrecs, -, -⟩ := @askAll_fields env s number
    refine hbegin.askAll.sendQuery net (hfrecs.symm ▸ hnumber) client _ plen ?_ _ _
    rw [hservers]
    exact serversAfter_subset (h.listed number hnumber sentto hsentto)

theorem chooseStart_fields (now : ℤ) (type : UInt16) :
    (chooseStart env s now type).1.servers = s.servers ∧
    (chooseStart env s now type).1.frecs = s.frecs ∧ (chooseStart env s now type).1.frec = s.frec ∧
    (chooseStart env s now type).1.randomsocks = s.randomsocks ∧
      (chooseStart env s now type).1.log = s.log ∧
    (chooseStart env s now type).1.serials = s.serials := by
  unfold chooseStart
  cases s.lastServer <;> dsimp only <;> split_ifs <;> exact ⟨rfl, rfl, rfl, rfl, rfl, rfl⟩

theorem FrecsInv.startQuery (h : FrecsInv env s none) (net : Net) (client : Client)
    (packet : Packet) (plen : ℕ) (now : ℤ) {crc : UInt32} (search : ServerSearch)
    (hnumber : number < s.frecs) (hfree : (s.frec number).sentto = none) {newId : UInt16}
    (hid : s.getId net crc = some newId) :
    FrecsInv env (startQuery env net s client packet plen now crc search number newId) none := by
  have hfilled := h.fillFrec hfree client packet crc newId search.norebind fun n hn huse ↦
    newId_fresh hid hn huse
  have hlt : number < (Dnsmasq.fillFrec s number client packet crc newId search.norebind).frecs :=
    hnumber
  unfold Dnsmasq.startQuery
  dsimp only
  generalize Dnsmasq.fillFrec s number client packet crc newId search.norebind =
    filled at hfilled hlt
  obtain ⟨hservers, hfrecs, hfrec, hsocks, -, -⟩ := @chooseStart_fields env filled now search.type
  generalize chooseStart env filled now search.type = chosen at hservers hfrecs hfrec hsocks
  obtain ⟨chosen, start, forwardall⟩ := chosen
  have hchosen : FrecsInv env chosen (some number) := hfilled.frame hservers hfrecs hfrec hsocks
  refine FrecsInv.sendQuery ?_ net (hfrecs.symm ▸ hlt) _ _ plen ?_ _ _
  · exact hchosen.setFrec (fun family ↦
      by cases family <;> rfl) rfl rfl (.inr rfl) fun server hserver ↦ .inl hserver
  · cases start with
    | none => simp
    | some start => exact serversFrom_subset _ start

theorem requestServers_fields (packet : Packet) (plen : ℕ) (now : ℤ) :
    (requestServers env s packet plen now).1.servers = s.servers ∧
    (requestServers env s packet plen now).1.frecs = s.frecs ∧
    (requestServers env s packet plen now).1.frec = s.frec ∧
    (requestServers env s packet plen now).1.randomsocks = s.randomsocks ∧
    (requestServers env s packet plen now).1.log = s.log ∧
    (requestServers env s packet plen now).1.serials = s.serials := by
  unfold requestServers
  cases extractRequest packet plen with
  | none => exact ⟨rfl, rfl, rfl, rfl, rfl, rfl⟩
  | some request => exact ⟨rfl, rfl, rfl, rfl, rfl, rfl⟩

theorem FrecsInv.newQuery (h : FrecsInv env s none) (net : Net) (client : Client) (packet : Packet)
    (plen : ℕ) (now : ℤ) (crc : UInt32)
    (hnext : newQuery env net s client packet plen now crc = some next) :
    FrecsInv env next none := by
  unfold Dnsmasq.newQuery at hnext
  obtain ⟨hservers, hfrecs, hfrec, hsocks, -, -⟩ := @requestServers_fields env s packet plen now
  generalize requestServers env s packet plen now = request at hnext hservers hfrecs hfrec hsocks
  obtain ⟨asked, search⟩ := request
  have hasked : FrecsInv env asked none := h.frame hservers hfrecs hfrec hsocks
  dsimp only at hnext
  split_ifs at hnext with hflags
  · exact Option.some.inj hnext ▸ hasked.answerLocally _ _ _ _ _ _
  · obtain ⟨hnew, hfree⟩ := hasked.getNewFrec net now false
    generalize asked.getNewFrec env net now false = result at hnext hnew hfree
    obtain ⟨found, _ | number⟩ := result
    · exact Option.some.inj hnext ▸ hnew.answerLocally _ _ _ _ _ _
    · obtain ⟨newId, hid, hstart⟩ := Option.map_eq_some_iff.mp hnext
      obtain ⟨hlt, hnone⟩ := hfree rfl number rfl
      exact hstart ▸ hnew.startQuery net client packet plen now search hlt hnone hid

theorem mem_frecList {number : ℕ} (h : number ∈ s.frecList) : number < s.frecs := by
  simpa [ForwardState.frecList] using h

theorem FrecsInv.forwardQuery (h : FrecsInv env s none) (net : Net) (client : Client)
    (packet : Packet) (plen : ℕ) (now : ℤ)
    (hnext : forwardQuery env net s client packet plen now = some next) :
    FrecsInv env next none := by
  have hnoted : ∀ event, FrecsInv env (s.note event) none := fun event ↦ h.note event
  unfold Dnsmasq.forwardQuery at hnext
  dsimp only at hnext
  split_ifs at hnext with hservers
  · exact Option.some.inj hnext ▸ (hnoted _).answerLocally _ _ _ _ _ _
  · split at hnext
    · next number hfound =>
      exact Option.some.inj hnext ▸ (hnoted _).retryQuery net
        (mem_frecList (List.mem_of_find?_eq_some hfound)) _ _ _
    · exact (hnoted _).newQuery net client _ plen now _ hnext

theorem FrecsInv.passReply (h : FrecsInv env s none) (hnumber : number < s.frecs)
    (huse : (s.frec number).sentto.isSome) (reply : ServerReply) (now : ℤ) :
    FrecsInv env (passReply env s reply number now) none := by
  unfold Dnsmasq.passReply
  dsimp only
  split_ifs
  · refine @FrecsInv.freeFrec env _ none number ?_ hnumber (.inr ⟨rfl, huse⟩)
    exact h.frame rfl rfl rfl rfl
  · refine @FrecsInv.freeFrec env _ none number ?_ hnumber (.inr ⟨rfl, huse⟩)
    exact h.frame rfl rfl rfl rfl

theorem FrecsInv.settleReply (h : FrecsInv env s none) (hnumber : number < s.frecs)
    (huse : (s.frec number).sentto.isSome) (reply : ServerReply) (now : ℤ) :
    FrecsInv env (settleReply env s reply number now) none := by
  have hless : FrecsInv env
      (s.setFrec number { s.frec number with forwardall := (s.frec number).forwardall - 1 }) none :=
    h.setFrec (fun family ↦
      by cases family <;> rfl) rfl rfl (.inr rfl) fun server hserver ↦ .inl hserver
  have huse' :
    ((s.setFrec number { s.frec number with forwardall := (s.frec number).forwardall - 1 }).frec
      number).sentto.isSome := by
    rw [ForwardState.setFrec_self]
    exact huse
  unfold Dnsmasq.settleReply
  dsimp only
  split_ifs
  · exact h.passReply hnumber huse reply now
  · exact hless.passReply hnumber huse' reply now
  · exact hless

theorem rememberServer_fields (reply : ServerReply) (sentto : Server) :
    (rememberServer env s reply sentto).servers = s.servers ∧
      (rememberServer env s reply sentto).frecs = s.frecs ∧
    (rememberServer env s reply sentto).frec = s.frec ∧
    (rememberServer env s reply sentto).randomsocks = s.randomsocks ∧
    (rememberServer env s reply sentto).log = s.log ∧
      (rememberServer env s reply sentto).serials = s.serials := by
  unfold rememberServer
  split_ifs <;> exact ⟨rfl, rfl, rfl, rfl, rfl, rfl⟩

theorem acceptReply_eq_some {reply : ServerReply} (haccept : acceptReply s reply = some number) :
    s.lookupFrec reply.packet.id (questionsCrc reply.packet reply.n) = some number := by
  unfold acceptReply at haccept
  split_ifs at haccept
  exact haccept

theorem FrecsInv.replyQuery (h : FrecsInv env s none) (net : Net) (reply : ServerReply) (now : ℤ) :
    FrecsInv env (replyQuery env net s reply now) none := by
  unfold Dnsmasq.replyQuery
  cases haccept : acceptReply s reply with
  | none => exact h
  | some number =>
    have hnumber := mem_frecList (List.mem_of_find?_eq_some (acceptReply_eq_some haccept))
    dsimp only
    cases hsentto : (s.frec number).sentto with
    | none => exact h
    | some sentto =>
      dsimp only
      split
      · exact h.retryQuery net hnumber none _ _
      · obtain ⟨hservers, hfrecs, hfrec, hsocks, -, -⟩ := @rememberServer_fields env s reply sentto
        refine (h.frame hservers hfrecs hfrec hsocks).settleReply (hfrecs.symm ▸ hnumber) ?_ reply
          now
        rw [hfrec, hsentto]
        rfl

theorem serverGone_loop (server : Server) (numbers : List ℕ) :
    ∀ {s : ForwardState}, FrecsInv env s none → (∀ n ∈ numbers, n < s.frecs) →
    let result := numbers.foldl
      (fun s number ↦ if (s.frec number).sentto = some server then s.freeFrec number else s) s
    FrecsInv env result none ∧ result.frecs = s.frecs ∧ result.servers = s.servers ∧
      ∀ n, (result.frec n).sentto = some server → (s.frec n).sentto = some server ∧
        n ∉ numbers := by
  induction numbers with
  | nil => exact fun h _ ↦ ⟨h, rfl, rfl, fun n hn ↦ ⟨hn, by simp⟩⟩
  | cons number rest ih =>
    intro s h hnumbers
    have hnumber := hnumbers number List.mem_cons_self
    have hrest : ∀ n ∈ rest, n < s.frecs := fun n hn ↦ hnumbers n (List.mem_cons_of_mem _ hn)
    rw [List.foldl_cons]
    split_ifs with hsentto
    · obtain ⟨hinv, hfrecs, hservers, hnone⟩ := ih
        (h.freeFrec hnumber (.inr ⟨rfl, by rw [hsentto]; rfl⟩)) (by simpa using hrest)
      refine ⟨hinv, hfrecs.trans freeFrec_frecs, hservers.trans freeFrec_servers, fun n hn ↦ ?_⟩
      obtain ⟨hold, hmem⟩ := hnone n hn
      have hne : n ≠ number := fun heq ↦ by
        rw [heq, frec_freeFrec_self] at hold
        exact absurd hold (by simp)
      rw [frec_freeFrec_of_ne hne] at hold
      exact ⟨hold, by simp [hne, hmem]⟩
    · obtain ⟨hinv, hfrecs, hservers, hnone⟩ := ih h hrest
      refine ⟨hinv, hfrecs, hservers, fun n hn ↦ ?_⟩
      obtain ⟨hold, hmem⟩ := hnone n hn
      have hne : n ≠ number := fun heq ↦ hsentto (heq ▸ hold)
      exact ⟨hold, by simp [hne, hmem]⟩

theorem FrecsInv.serverGone (h : FrecsInv env s none) (server : Server) :
    FrecsInv env (s.serverGone server) none := by
  obtain ⟨hinv, hfrecs, hservers, hnone⟩ := serverGone_loop server s.frecList h fun n hn ↦
    mem_frecList hn
  unfold ForwardState.serverGone
  generalize s.frecList.foldl _ s = result at hinv hfrecs hservers hnone
  refine ⟨hinv.accounts, hinv.family, hinv.bound, hinv.idle, hinv.size, hinv.distinct,
    fun n hn other hother ↦ ?_⟩
  refine List.mem_filter.mpr ⟨hinv.listed n hn other hother, ?_⟩
  simp only [ne_eq, decide_not, Bool.not_eq_true', decide_eq_false_iff_not]
  rintro rfl
  refine (hnone n hother).2 ?_
  have hlt : n < s.frecs := hfrecs ▸ hn
  simpa [ForwardState.frecList] using hlt

theorem FrecsInv.call (h : FrecsInv env s none) (net : Net) (call : ForwardCall)
    (hnext : s.call env net call = some next) : FrecsInv env next none := by
  cases call with
  | query client packet plen now => exact h.forwardQuery net client packet plen now hnext
  | reply reply now => exact Option.some.inj hnext ▸ h.replyQuery net reply now
  | newFrec now => exact Option.some.inj hnext ▸ (h.getNewFrec net now true).1
  | gone server => exact Option.some.inj hnext ▸ h.serverGone server
  | come servers =>
    dsimp only [ForwardState.call] at hnext
    split_ifs at hnext with hall
    obtain rfl := Option.some.inj hnext
    exact ⟨h.accounts, h.family, h.bound, h.idle, h.size, h.distinct,
      fun n hn server hserver ↦ hall (h.listed n hn server hserver)⟩

end Table

theorem ForwardReachable.inv {env : ForwardEnv} (h : ForwardReachable env s) :
    FrecsInv env s none := by
  refine Reachable.invariant (fun s ↦ FrecsInv env s none) ?_ ?_ h
  · rintro s ⟨servers, memory, session, rfl⟩
    refine ⟨.empty (fun _ ↦ ⟨rfl, rfl⟩) rfl rfl ?_, ?_, ?_, ?_, Nat.zero_le _, ?_, ?_⟩
    · simp [holders, ForwardState.start]
    all_goals simp [ForwardState.start]
  · rintro s ⟨net, call⟩ next - hinv - hnext
    exact hinv.call net call hnext

/-! ### The result for all runs -/

structure TableAccounted (env : ForwardEnv) (s : ForwardState) : Prop where
  /-- a socket counts the records that use it -/
  refcount : ∀ i, (s.randomsocks.slots i).count = ((Finset.range s.frecs).filter fun number ↦
    (s.frec number).rfd4 = some i ∨ (s.frec number).rfd6 = some i).card
  /-- its descriptor is open exactly while it is used -/
  openWhileUsed : ∀ i, (0 < (s.randomsocks.slots i).count →
      ∃ fd, (s.randomsocks.slots i).handle = some fd ∧ fd < s.randomsocks.opened) ∧
    ∀ fd, (s.randomsocks.slots i).handle = some fd →
      (fd ∉ s.randomsocks.closed ↔ 0 < (s.randomsocks.slots i).count)
  /-- no descriptor is lost without being closed -/
  noneLost : ∀ fd < s.randomsocks.opened, fd ∉ s.randomsocks.closed →
    ∃ i, 0 < (s.randomsocks.slots i).count ∧ (s.randomsocks.slots i).handle = some fd
  closedOnce : s.randomsocks.closed.Nodup
  idle : ∀ number < s.frecs, (s.frec number).sentto = none →
    (s.frec number).rfd4 = none ∧ (s.frec number).rfd6 = none
  size : s.frecs ≤ env.ftabsize + 1
  distinct : ∀ m < s.frecs, ∀ n < s.frecs, m ≠ n → (s.frec m).sentto.isSome →
    (s.frec n).sentto.isSome →
    ((s.frec m).newId, (s.frec m).crc) ≠ ((s.frec n).newId, (s.frec n).crc)

theorem FrecsInv.references_eq {env : ForwardEnv} (h : FrecsInv env s none) (i : ℕ) :
    references (holders s) (holds s) i = ((Finset.range s.frecs).filter fun number ↦
      (s.frec number).rfd4 = some i ∨ (s.frec number).rfd6 = some i).card := by
  unfold references
  have hone : Set.InjOn Prod.fst ((holders s).filter fun holder ↦ holds s holder = some i :
    Set (ℕ × Family)) := by
    rintro ⟨m, family⟩ hm ⟨n, other⟩ hn heq
    obtain ⟨hlt, hfamily⟩ := mem_referring.mp (Finset.mem_coe.mp hm)
    obtain ⟨-, hother⟩ := mem_referring.mp (Finset.mem_coe.mp hn)
    obtain rfl : m = n := heq
    rw [← h.family m hlt family i hfamily, h.family m hlt other i hother]
  rw [← Finset.card_image_of_injOn hone]
  congr 1
  ext number
  rw [Finset.mem_image, Finset.mem_filter, Finset.mem_range]
  constructor
  · rintro ⟨⟨n, family⟩, hmem, rfl⟩
    obtain ⟨hlt, hrfd⟩ := mem_referring.mp hmem
    refine ⟨hlt, ?_⟩
    cases family with
    | inet => exact .inl hrfd
    | inet6 => exact .inr hrfd
  · rintro ⟨hlt, hrfd | hrfd⟩
    · exact ⟨(number, .inet), mem_referring.mpr ⟨hlt, hrfd⟩, rfl⟩
    · exact ⟨(number, .inet6), mem_referring.mpr ⟨hlt, hrfd⟩, rfl⟩

/-- The table is accounted for in every state of the forwarder. -/
theorem tableAccounted_of_reachable {env : ForwardEnv} {s : ForwardState}
    (hreach : ForwardReachable env s) :
    TableAccounted env s := by
  have h := hreach.inv
  have hidle : ∀ number, (s.frec number).sentto = none → ¬Live s none number :=
    fun number hnone hlive ↦ by
    simp [Live, hnone] at hlive
  refine ⟨fun i ↦ ?_, fun i ↦ ⟨fun hpos ↦ ?_, fun fd hfd ↦ h.accounts.notMem_closed_iff hfd⟩,
    h.accounts.held,
    h.accounts.closedOnce, fun number hlt hnone ↦ ?_, h.size, fun m hm n hn hne hm' hn' ↦ ?_⟩
  · rw [h.accounts.count, h.references_eq]
  · obtain ⟨fd, hfd, hlt, -⟩ := h.accounts.isOpen i hpos
    exact ⟨fd, hfd, hlt⟩
  · exact ⟨h.idle number hlt (hidle number hnone) .inet,
      h.idle number hlt (hidle number hnone) .inet6⟩
  · exact h.distinct m hm n hn hne (.inl hm') (.inl hn')

/-- A configuration without a cache. -/
def plainEnv : ForwardEnv where
  cache := ⟨0, 0, [], false, 0, fun _ ↦ 0, id, fun _ ↦ none⟩
  process := ⟨⟨[], false, false, false, 0, 0⟩, 1280, false, [], []⟩
  ftabsize := 150
  localTtl := 0
  optOrder := false
  optAllServers := false
  optNoRebind := true
  optNodotsLocal := false

def plainNet (rand16 : List UInt16) : Net :=
  ⟨true, rand16, fun _ ↦ true, fun _ ↦ true, fun _ packet plen ↦ (packet, plen)⟩

def plainServer (number : ℕ) (last : UInt8) :
    Server := ⟨number, ⟨.inet, 53, [192, 0, 2, last]⟩, 0, [], none⟩

def blankFrec : Frec := ⟨⟨.inet, 0, []⟩, [], none, none, none, 0, 0, 0, 0, 0, false, false, 0, 0, 0⟩

def plainServers : List Server := [plainServer 0 1, plainServer 1 2]

def plainSession : Session := ⟨cacheInit plainEnv.cache default, none, [], false⟩

def plainClient : Client := ⟨3, ⟨.inet, 4000, [192, 0, 2, 9]⟩, [], 0⟩

def plainQuery : Packet := [0, 7, 1, 0, 0, 0, 0, 0, 0, 0, 0, 0]

/-- A client asks, and its record gets a socket. -/
theorem tableAccounted_plainQuery : ∃ s, ForwardReachable plainEnv s ∧
    (s.frecs = 1 ∧ (s.randomsocks.slots 0).count = 1) ∧ TableAccounted plainEnv s := by
  obtain ⟨s, hreach, htest⟩ :=
    exists_forwardReachable plainEnv plainServers (fun _ ↦ blankFrec) plainSession
    [(plainNet [77], .query plainClient plainQuery 12 0)]
    (fun s ↦ s.frecs = 1 ∧ (s.randomsocks.slots 0).count = 1) (by decide)
  exact ⟨s, hreach, by simpa using htest, tableAccounted_of_reachable hreach⟩

end CrossBreeder.Dnsmasq
