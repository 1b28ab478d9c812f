import CrossBreeder.Dnsmasq.DhcpReply
import CrossBreeder.Foundation.EndingLoop

/-!
# The times of a lease

The renewal time T1 and the rebinding time T2 of a DHCPOFFER and of a DHCPACK, in the 32 bits that
the source computes with. The two messages take the same fractions of the time of the lease in a
different order: a DHCPOFFER multiplies first, which is too much for a very long lease.
-/

namespace CrossBreeder.Dnsmasq

open Foundation

def configuredTime (context : Context) (config : Option HostConfig) : UInt32 :=
  (config.bind HostConfig.leaseTime).getD context.leaseTime

def offerTimers (time : UInt32) : Option (UInt32 × UInt32) :=
  if time ≠ 0xffffffff then some (time / 2, time * 7 / 8) else none

/-- One round of the loop that makes the fuzz small enough. -/
def fuzzRound (time : UInt32) (fuzz : UInt16) : Round UInt16 UInt16 :=
  if time / 16 < fuzz.toUInt32 then .again (fuzz / 2) else .ret fuzz

def halvedFuzz (time : UInt32) (fuzz : UInt16) (rounds : ℕ) :
    Option UInt16 := runRounds (fuzzRound time) rounds fuzz

/-- T1 and T2 of a DHCPACK, with the fuzz that was taken from them. -/
def ackTimers (time : UInt32) (fuzz : UInt16) (rounds : ℕ) :
    Option (Option (UInt16 × UInt32 × UInt32)) :=
  if time ≠ 0xffffffff then
    (halvedFuzz time fuzz rounds).map fun fuzz ↦
      some (fuzz, time / 2 - fuzz.toUInt32, time / 8 * 7 - fuzz.toUInt32)
  else some none

/-! ### Order -/

/-- T1 is not after T2, T2 not after the end, and with the fuzz it is less than eight seconds before
seven eighths of the time. -/
structure TimersOrdered (time t1 t2 : UInt32) (fuzz : ℕ) : Prop where
  renewal : t1 ≤ t2
  rebinding : t2 ≤ time
  below : 8 * (t2.toNat + fuzz) ≤ 7 * time.toNat
  near : 7 * time.toNat < 8 * (t2.toNat + fuzz + 8)

def OfferOrdered (time : UInt32) :
    Prop := ∃ t1 t2, offerTimers time = some (t1, t2) ∧ TimersOrdered time t1 t2 0

/-- The loop over the fuzz ends, and a DHCPACK has times in order. -/
def AckOrdered (time : UInt32) (fuzz : UInt16) : Prop :=
  ∃ rounds less t1 t2, ackTimers time fuzz rounds = some (some (less, t1, t2)) ∧
    TimersOrdered time t1 t2 less.toNat

def overflowTime : UInt32 := 613566757

theorem offerOrdered_iff {time : UInt32} (hlong : 120 ≤ time) (hfinite : time ≠ 0xffffffff) :
    OfferOrdered time ↔ time < overflowTime := by
  have htime := time.toNat_lt
  have hlow : 120 ≤ time.toNat := hlong
  have hsum : (time * 7 / 8).toNat = time.toNat * 7 % 4294967296 / 8 := by
    rw [UInt32.toNat_div, UInt32.toNat_mul]
    rfl
  have hhalf : (time / 2).toNat = time.toNat / 2 := UInt32.toNat_div time 2
  have hless : time < overflowTime ↔ time.toNat < 613566757 := Iff.rfl
  have hrun : offerTimers time = some (time / 2, time * 7 / 8) := if_pos hfinite
  rw [hless]
  constructor
  · rintro ⟨t1, t2, htimers, hordered⟩
    rw [hrun] at htimers
    cases htimers
    have hnear := hordered.near
    rw [hsum] at hnear
    by_contra hover
    omega
  · intro hfits
    rw [Nat.mod_eq_of_lt (show time.toNat * 7 < 4294967296 by omega)] at hsum
    refine ⟨_, _, hrun, ?_, ?_, ?_, ?_⟩
    · rw [UInt32.le_iff_toNat_le, hsum, hhalf]
      omega
    · rw [UInt32.le_iff_toNat_le, hsum]
      omega
    · rw [hsum]
      omega
    · rw [hsum]
      omega

theorem halvedFuzz_spec (time : UInt32) (fuzz : UInt16) :
    ∃ rounds less, halvedFuzz time fuzz rounds = some less ∧ less.toNat ≤ time.toNat / 16 := by
  have hsixteenth : (time / 16).toNat = time.toNat / 16 := UInt32.toNat_div time 16
  have hsize : ∀ fuzz less, fuzzRound time fuzz = .again less → less.toNat < fuzz.toNat := by
    intro fuzz less hround
    rw [fuzzRound] at hround
    split_ifs at hround with hbig
    cases hround
    rw [UInt32.lt_iff_toNat_lt, UInt16.toNat_toUInt32] at hbig
    have hhalf : (fuzz / 2).toNat = fuzz.toNat / 2 := UInt16.toNat_div fuzz 2
    omega
  obtain ⟨less, hrun⟩ :=
    exists_runRounds UInt16.toNat hsize (fuzz.toNat + 1) (Nat.lt_succ_self fuzz.toNat)
  refine ⟨_, less, hrun, ?_⟩
  refine (returns_of_runRounds _ hrun).invariant (fun _ ↦ True) (fun less ↦
    less.toNat ≤ time.toNat / 16) ?_ (fun _ _ _ _ ↦ trivial) trivial
  intro fuzz value _ hround
  rw [fuzzRound] at hround
  split_ifs at hround with hbig
  cases hround
  rw [UInt32.lt_iff_toNat_lt, UInt16.toNat_toUInt32] at hbig
  omega

theorem ackOrdered {time : UInt32} (fuzz : UInt16) (hlong : 120 ≤ time)
    (hfinite : time ≠ 0xffffffff) :
    AckOrdered time fuzz := by
  have htime := time.toNat_lt
  have hlow : 120 ≤ time.toNat := hlong
  obtain ⟨rounds, less, hrun, hsixteenth⟩ := halvedFuzz_spec time fuzz
  have hhalf : (time / 2).toNat = time.toNat / 2 := UInt32.toNat_div time 2
  have heighths : (time / 8 * 7).toNat = time.toNat / 8 * 7 := by
    rw [UInt32.toNat_mul, UInt32.toNat_div]
    exact Nat.mod_eq_of_lt (by simp only [UInt32.reduceToNat]; omega)
  have hfuzz : less.toUInt32.toNat = less.toNat := UInt16.toNat_toUInt32 less
  have ht1 : (time / 2 - less.toUInt32).toNat = time.toNat / 2 - less.toNat := by
    rw [UInt32.toNat_sub_of_le _ _ (by rw [UInt32.le_iff_toNat_le]; omega), hhalf, hfuzz]
  have ht2 : (time / 8 * 7 - less.toUInt32).toNat = time.toNat / 8 * 7 - less.toNat := by
    rw [UInt32.toNat_sub_of_le _ _ (by rw [UInt32.le_iff_toNat_le]; omega), heighths, hfuzz]
  refine ⟨rounds, less, _, _, by rw [ackTimers, if_pos hfinite, hrun]; rfl, ?_, ?_, ?_, ?_⟩
  · rw [UInt32.le_iff_toNat_le, ht1, ht2]
    omega
  · rw [UInt32.le_iff_toNat_le, ht2]
    omega
  · rw [ht2]
    omega
  · rw [ht2]
    omega

/-! ### The time that is sent -/

/-- The time that is sent is the shorter one of the configured and the requested time, where a
request is for 120 seconds at least. -/
theorem toNat_calcTime (context : Context) (config : Option HostConfig)
    (requested : Option UInt32) : (calcTime context config requested).toNat = match requested with
      | none => (configuredTime context config).toNat
      | some requested => min (configuredTime context config).toNat (max requested.toNat 120) := by
  have hconfigured : (config.bind HostConfig.leaseTime).getD context.leaseTime =
    configuredTime context config := rfl
  cases requested with
  | none => rfl
  | some requested =>
    rw [calcTime, hconfigured]
    have hlow : (if requested < 120 then (120 : UInt32) else requested).toNat =
      max requested.toNat 120 := by
      split_ifs with hshort
      · rw [UInt32.lt_iff_toNat_lt] at hshort
        exact (max_eq_right hshort.le).symm
      · rw [UInt32.lt_iff_toNat_lt] at hshort
        exact (max_eq_left (not_lt.mp hshort)).symm
    generalize (if requested < 120 then (120 : UInt32) else requested) = asked at hlow ⊢
    have hasked := asked.toNat_lt
    have htime := (configuredTime context config).toNat_lt
    simp only [← UInt32.toNat_inj, UInt32.lt_iff_toNat_lt, ne_eq, UInt32.reduceToNat]
    split_ifs <;> omega

theorem le_calcTime {context : Context} {config : Option HostConfig} (requested : Option UInt32)
    (hlong : 120 ≤ configuredTime context config) : 120 ≤ calcTime context config requested := by
  have hlow : 120 ≤ (configuredTime context config).toNat := hlong
  rw [UInt32.le_iff_toNat_le, toNat_calcTime]
  cases requested with
  | none => exact hlow
  | some requested => exact le_min hlow (le_max_right _ _)

section Replies

variable {env : DhcpEnv} {world : DhcpWorld} {s last : DhcpState} {call : DhcpCall}

/-- The times of the DHCPACK for a lease that is given are in order, and before the lease ends. -/
theorem grantLease_timers {c : ℕ} (override : UInt32) (table : LeaseTable) (lease : Lease)
    (yiaddr : UInt32) (fuzz : UInt16) (hlong : 120 ≤ configuredTime (s.contexts c) call.config)
    (hfinite : calcTime (s.contexts c) call.config call.mess.leaseTime ≠ 0xffffffff) :
    ∃ rounds less t1 t2, ackTimers
      (calcTime (s.contexts c) call.config call.mess.leaseTime) fuzz rounds =
        some (some (less, t1, t2)) ∧ t1 ≤ t2 ∧
      ∀ after ∈ (grantLease env world s call c override table lease yiaddr).1.table.leases,
        after.number = lease.number → call.arrival.now + t2.toNat ≤ after.expires := by
  obtain ⟨rounds, less, t1, t2, htimers, hordered⟩ :=
    ackOrdered fuzz (le_calcTime call.mess.leaseTime hlong) hfinite
  refine ⟨rounds, less, t1, t2, htimers, hordered.renewal, fun after hmem hnumber ↦ ?_⟩
  obtain ⟨old, -, rfl⟩ := List.mem_map.mp hmem
  by_cases hold : old.number = lease.number
  · rw [if_pos hold]
    dsimp only [Lease.setExpires]
    rw [if_neg hfinite]
    exact Nat.add_le_add_left (UInt32.le_iff_toNat_le.mp hordered.rebinding) _
  · rw [if_neg hold] at hnumber
    exact absurd hnumber hold

/-- A DHCPOFFER is for a range, and its times are in order if that of the range, the host and the
client is short enough. -/
theorem discoverReply_timers {addr id : UInt32}
    (hoffer : discoverReply env world s call = (last, .offer addr id)) :
    ∃ c, narrowContext last.contexts call.chain addr call.tagif = some c ∧
      (120 ≤ configuredTime (last.contexts c) call.config →
        calcTime (last.contexts c) call.config call.mess.leaseTime ≠ 0xffffffff →
          (OfferOrdered (calcTime (last.contexts c) call.config call.mess.leaseTime) ↔
            calcTime (last.contexts c) call.config call.mess.leaseTime < overflowTime)) := by
  unfold discoverReply at hoffer
  split_ifs at hoffer
  · exact absurd (congrArg Prod.snd hoffer) (by simp)
  · obtain ⟨⟨next, found⟩, hfound⟩ : ∃ offered, offeredAddress env world s call = offered :=
      ⟨_, rfl⟩
    rw [hfound] at hoffer
    cases found with
    | none => exact absurd (congrArg Prod.snd hoffer) (by simp)
    | some yiaddr =>
      dsimp only at hoffer
      cases hrange : narrowContext next.contexts call.chain yiaddr call.tagif with
      | none =>
        rw [hrange] at hoffer
        exact absurd (congrArg Prod.snd hoffer) (by simp)
      | some c =>
        rw [hrange] at hoffer
        obtain ⟨rfl, hanswer⟩ := Prod.mk.inj hoffer
        obtain ⟨rfl, -⟩ := DhcpAnswer.offer.inj hanswer
        exact ⟨c, hrange, fun hlong ↦ offerOrdered_iff (le_calcTime _ hlong)⟩

end Replies

/-- For every configured time of 120 seconds at least, every requested time and every fuzz: if the
time that is sent is finite, both messages have their times in order exactly if the configured or
the requested time is short enough for its sevenfold to fit in 32 bits. -/
theorem timersOrdered_iff {context : Context} {config : Option HostConfig}
    (requested : Option UInt32) (fuzz : UInt16) (hlong : 120 ≤ configuredTime context config)
    (hfinite : calcTime context config requested ≠ 0xffffffff) :
    OfferOrdered (calcTime context config requested) ∧ AckOrdered
      (calcTime context config requested) fuzz ↔
      configuredTime context config < overflowTime ∨ ∃ asked, requested = some asked ∧
      asked < overflowTime := by
  have htime := toNat_calcTime context config requested
  have hlow : 120 ≤ (configuredTime context config).toNat := hlong
  have hsent := le_calcTime requested hlong
  rw [and_iff_left (ackOrdered fuzz hsent hfinite), offerOrdered_iff hsent hfinite]
  have hless : ∀ time : UInt32, time < overflowTime ↔ time.toNat < 613566757 := fun _ ↦ Iff.rfl
  simp only [hless, htime]
  cases requested with
  | none => simp
  | some requested =>
    simp only [Option.some.injEq, exists_eq_left']
    omega

def hourRange : Context :=
  { start := 0xc0a80002, endAddr := 0xc0a800fe, netmask := 0xffffff00, broadcast := 0xc0a800ff,
    localAddr := 0xc0a80001
    router := 0xc0a80001, leaseTime := 3600, addrEpoch := 0, isStatic := false, isProxy :=
      false, hasNetmask := true
    hasBroadcast := true, netid := none, filter := [] }

theorem timersOrdered_iff_hour : OfferOrdered (calcTime hourRange none (some 1800)) ∧ AckOrdered
    (calcTime hourRange none (some 1800)) 40000 :=
  (timersOrdered_iff (some 1800) 40000 (by decide) (by decide)).mpr (Or.inl (by decide))

/-- With leases of twenty years a DHCPOFFER has T1 after T2. -/
theorem not_offerOrdered_twentyYears :
    ¬ OfferOrdered (calcTime { hourRange with leaseTime := 630720000 } none none) := by
  rintro ⟨t1, t2, htimers, hordered⟩
  have hrun : offerTimers (calcTime { hourRange with leaseTime := 630720000 } none none) =
    some (315360000, 15009088) := by
    decide
  rw [hrun] at htimers
  cases htimers
  exact absurd hordered.renewal (by decide)

end CrossBreeder.Dnsmasq
