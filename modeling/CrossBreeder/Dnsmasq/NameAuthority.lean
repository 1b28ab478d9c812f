import CrossBreeder.Dnsmasq.LeaseNames

/-!
# Where names of leases come from

`lease_set_hostname` with all that it does: names that are absent, memory that is not there, IPv6
leases among the others, and `LEASE_AUTH_NAME`, the flag of a lease whose name came from the
configuration. The flag is never cleared, while names are lost and replaced. The names of IPv4
leases stay distinct in every run, but the flag says where a name came from only as long as no lease
with the flag loses its name (`namesKept_iff`).
-/

namespace CrossBreeder.Dnsmasq

open LeaseTable

/-! ### `lease_set_hostname` -/

/-- A lease, with whether it has `LEASE_TA` or `LEASE_NA`. -/
structure FamilyLease extends Lease where
  ipv6 : Bool
  deriving DecidableEq

/-- `kill_name`. The flags stay as they are. -/
def FamilyLease.killName (lease : FamilyLease) : FamilyLease :=
  { lease with toLease := lease.toLease.killName }

/-- The arguments of `lease_set_hostname`, and whether there is memory for the two names. -/
structure NameCall where
  number : ℕ
  name : Option (List UInt8)
  auth : Bool
  domain : Option (List UInt8)
  nameMemory : Bool
  fqdnMemory : Bool

def NameCall.newName (call : NameCall) : Option (List UInt8) :=
  if call.nameMemory then call.name else none

def NameCall.newFqdn (call : NameCall) : Option (List UInt8) :=
  if call.fqdnMemory then call.newName.bind fun name ↦ qualify name call.domain else none

def NameCall.key (byFqdn : Bool) (call : NameCall) : Option (List UInt8) :=
  if byFqdn then call.newFqdn else call.newName

/-- The loop stops at a lease with the name. Leases of one DUID may share a name. -/
def takesName (byFqdn : Bool) (call : NameCall) (lease other : FamilyLease) : Bool :=
  (if byFqdn then sameName other.fqdn call.newFqdn else sameName other.hostname call.newName) ∧
    if lease.ipv6 then other.ipv6 ∧ ¬(lease.clid.isSome ∧ lease.clid = other.clid) else ¬other.ipv6

/-- The lease that the loop stops at. -/
def nameTaken (byFqdn : Bool) (leases : List FamilyLease) (call : NameCall) (lease : FamilyLease) :
    Option FamilyLease :=
  leases.find? (takesName byFqdn call lease)

def leaseAt (leases : List FamilyLease) (number : ℕ) : Option FamilyLease :=
  leases.find? fun lease ↦ lease.number = number

def changeLease (leases : List FamilyLease) (number : ℕ) (change : FamilyLease → FamilyLease) :
    List FamilyLease :=
  leases.map fun lease ↦ if lease.number = number then change lease else lease

def renameLease (leases : List FamilyLease) (call : NameCall) : List FamilyLease :=
  changeLease leases call.number fun lease ↦
    { lease with hostname := call.newName, fqdn := call.newFqdn, authName := lease.authName ||
      call.auth }

/-- `lease_set_hostname`, for a lease of the table. -/
def leaseSetHostname (byFqdn : Bool) (leases : List FamilyLease) (call : NameCall) :
    List FamilyLease :=
  match leaseAt leases call.number with
  | none => leases
  | some lease =>
    if sameName lease.hostname call.name then
      if call.auth then changeLease leases call.number fun lease ↦ { lease with authName := true }
        else leases
    else if call.name = none ∧ lease.hostname = none then leases
    else match nameTaken byFqdn leases call lease with
      | none => renameLease leases call
      | some holder =>
        if holder.authName ∧ call.auth = false then leases
        else renameLease (changeLease leases holder.number FamilyLease.killName) call

/-! ### Outcomes -/

structure Renames (byFqdn : Bool) (leases : List FamilyLease) (call : NameCall)
    (lease : FamilyLease) : Prop where
  other : sameName lease.hostname call.name = false
  present : ¬(call.name = none ∧ lease.hostname = none)
  allowed : ∀ holder, nameTaken byFqdn leases call lease = some holder → holder.authName = true →
    call.auth = true

/-- A lease after a call that gets to the end. -/
def afterRename (call : NameCall) (taken : Option ℕ) (lease : FamilyLease) : FamilyLease :=
  if lease.number = call.number then
    { lease with hostname := call.newName, fqdn := call.newFqdn, authName := lease.authName ||
      call.auth }
  else if taken = some lease.number then lease.killName else lease

theorem afterRename_number (call : NameCall) (taken : Option ℕ) (lease : FamilyLease) :
    (afterRename call taken lease).number = lease.number := by
  unfold afterRename
  split_ifs <;> rfl

theorem afterRename_ipv6 (call : NameCall) (taken : Option ℕ) (lease : FamilyLease) :
    (afterRename call taken lease).ipv6 = lease.ipv6 := by
  unfold afterRename
  split_ifs <;> rfl

inductive NameOutcome (byFqdn : Bool) (leases : List FamilyLease) (call : NameCall)
    (lease : FamilyLease) : List FamilyLease → Prop
  | confirmed (hsame : sameName lease.hostname call.name = true) (hauth : call.auth = true) :
      NameOutcome byFqdn leases call lease
        (changeLease leases call.number fun lease ↦ { lease with authName := true })
  | quiet (hnot : ¬Renames byFqdn leases call lease)
      (hauth : call.auth = true → sameName lease.hostname call.name = false) :
      NameOutcome byFqdn leases call lease leases
  | renamed (hrenames : Renames byFqdn leases call lease) :
      NameOutcome byFqdn leases call lease
        (leases.map
          (afterRename call ((nameTaken byFqdn leases call lease).map fun holder ↦ holder.number)))

variable {byFqdn : Bool}

theorem leaseSetHostname_none {leases : List FamilyLease} {call : NameCall}
    (hlease : leaseAt leases call.number = none) :
    leaseSetHostname byFqdn leases call = leases := by
  unfold leaseSetHostname
  rw [hlease]

theorem leaseSetHostname_outcome {leases : List FamilyLease} {call : NameCall} {lease : FamilyLease}
    (hlease : leaseAt leases call.number = some lease) :
    NameOutcome byFqdn leases call lease (leaseSetHostname byFqdn leases call) := by
  unfold leaseSetHostname
  rw [hlease]
  dsimp only
  split_ifs with hsame hauth hnone
  · exact .confirmed hsame hauth
  · exact .quiet (fun h ↦ absurd hsame (Bool.eq_false_iff.mp h.other)) fun h ↦ absurd h hauth
  · exact .quiet (fun h ↦ h.present hnone) fun _ ↦ Bool.eq_false_iff.mpr hsame
  · have hother := Bool.eq_false_iff.mpr hsame
    cases htaken : nameTaken byFqdn leases call lease with
    | none =>
      have hrenamed := @NameOutcome.renamed byFqdn leases call lease
        ⟨hother, hnone, by simp [htaken]⟩
      rw [htaken] at hrenamed
      have heq : renameLease leases call = leases.map (afterRename call none) :=
        List.map_congr_left fun other _ ↦ by simp only [afterRename, reduceCtorEq, if_false]
      rw [heq]
      exact hrenamed
    | some holder =>
      dsimp only
      split_ifs with hrefused
      · refine .quiet (fun h ↦ ?_) fun _ ↦ hother
        exact absurd ((h.allowed holder htaken hrefused.1).symm.trans hrefused.2) (by simp)
      · have hallowed : ∀ other, nameTaken byFqdn leases call lease = some other →
          other.authName = true →
            call.auth = true := by
          intro other hother hflag
          obtain rfl : holder = other := Option.some.inj (htaken.symm.trans hother)
          exact Bool.eq_true_of_not_eq_false fun h ↦ hrefused ⟨hflag, h⟩
        have hrenamed := @NameOutcome.renamed byFqdn leases call lease
          ⟨hother, hnone, hallowed⟩
        rw [htaken] at hrenamed
        -- first the name is taken from one lease, then it is given to another
        have heq : renameLease (changeLease leases holder.number FamilyLease.killName) call =
            leases.map (afterRename call ((some holder).map fun holder ↦ holder.number)) := by
          unfold renameLease changeLease
          rw [List.map_map]
          refine List.map_congr_left fun other _ ↦ ?_
          unfold afterRename
          by_cases hholder : other.number = holder.number
          · by_cases hnumber : holder.number = call.number
            · simp [hholder, hnumber, FamilyLease.killName, Lease.killName]
            · simp [hholder, hnumber, FamilyLease.killName, Lease.killName]
          · simp [hholder, Ne.symm hholder]
        rw [heq]
        exact hrenamed

/-! ### Runs -/

/-- The leases, how many were allocated so far, and, on top of what the program stores, for which
leases the name that they have came from the configuration. -/
structure NameState where
  leases : List FamilyLease
  allocated : ℕ
  configured : ℕ → Bool

def nameOf (leases : List FamilyLease) (number : ℕ) : Option (List UInt8) :=
  (leaseAt leases number).bind fun lease ↦ lease.hostname

/-- A name comes from the configuration if a call has just brought it from there, or if it is the
one that it was and came from there. -/
def configuredAfter (call : NameCall) (before after : List FamilyLease) (configured : ℕ → Bool)
    (number : ℕ) : Bool :=
  (number = call.number ∧ call.auth ∧ sameName (nameOf after number) call.name) ∨
    (configured number ∧ nameOf after number = nameOf before number)

theorem configuredAfter_iff {call : NameCall} {before after : List FamilyLease}
    {configured : ℕ → Bool} {number : ℕ} :
    configuredAfter call before after configured number = true ↔
      (number = call.number ∧ call.auth = true ∧ sameName (nameOf after number) call.name = true) ∨
        (configured number = true ∧ nameOf after number = nameOf before number) :=
  decide_eq_true_iff

theorem named_of_configuredAfter {call : NameCall} {before after : List FamilyLease}
    {configured : ℕ → Bool} {number : ℕ}
    (hnamed : configured number = true → nameOf before number ≠ none)
    (h : configuredAfter call before after configured number = true) :
    nameOf after number ≠ none := by
  rcases configuredAfter_iff.mp h with ⟨-, -, hsame⟩ | ⟨hwas, hname⟩
  · intro hnone
    rw [hnone, sameName_none] at hsame
    exact absurd hsame (by simp)
  · rw [hname]
    exact hnamed hwas

inductive NameEvent
  | set (call : NameCall)
  | prune (target : Option ℕ) (now : ℕ)
  | allocate (addr : UInt32) (ipv6 : Bool)
  | setHwaddr (number : ℕ) (hwaddr : List UInt8) (hwType : ℕ) (clid : Option (List UInt8))
  | setExpires (number : ℕ) (len : UInt32) (now : ℕ)

def nameStep (byFqdn : Bool) (s : NameState) : NameEvent → NameState
  | .set call =>
    let after := leaseSetHostname byFqdn s.leases call
    { s with leases := after, configured := configuredAfter call s.leases after s.configured }
  | .prune target now =>
    { s with leases := s.leases.filter fun lease ↦ !pruned target now lease.toLease }
  | .allocate addr ipv6 =>
    { leases :=
        { number := s.allocated, addr := addr, hwaddr := [], hwaddrLen := 256, hwaddrType := 0,
          clid := none, hostname := none, fqdn := none, authName := false, expires := 1,
          override := 0, ipv6 := ipv6 } :: s.leases
      allocated := s.allocated + 1
      configured := fun number ↦ if number = s.allocated then false else s.configured number }
  | .setHwaddr number hwaddr hwType clid =>
    { s with leases := changeLease s.leases number fun lease ↦
        { lease with toLease := lease.toLease.setHwaddr hwaddr hwType clid } }
  | .setExpires number len now =>
    { s with leases := changeLease s.leases number fun lease ↦
        { lease with toLease := lease.toLease.setExpires len now } }

def nameRun (byFqdn : Bool) (events : List NameEvent) : NameState :=
  events.foldl (nameStep byFqdn) ⟨[], 0, fun _ ↦ false⟩

theorem nameRun_append (byFqdn : Bool) (events : List NameEvent) (event : NameEvent) :
    nameRun byFqdn (events ++ [event]) = nameStep byFqdn (nameRun byFqdn events) event :=
  List.foldl_concat ..

/-- What holds in every state: a lease has a number of its own, no two IPv4 leases have the same
name, and what has a name of the configuration has a name and the flag. -/
structure NameInv (byFqdn : Bool) (s : NameState) : Prop where
  numbers : (s.leases.map fun lease ↦ lease.number).Nodup
  fresh : ∀ lease ∈ s.leases, lease.number < s.allocated
  distinct : ∀ left ∈ s.leases, ∀ right ∈ s.leases, left.ipv6 = false → right.ipv6 = false →
    sameName (left.nameKey byFqdn) (right.nameKey byFqdn) = true → left.number = right.number
  flagged : ∀ lease ∈ s.leases, s.configured lease.number = true → lease.authName = true
  named : ∀ lease ∈ s.leases, s.configured lease.number = true → lease.hostname ≠ none

section Lookup

variable {leases : List FamilyLease} {lease : FamilyLease} {number : ℕ}

theorem number_of_leaseAt (hfind : leaseAt leases number = some lease) : lease.number = number := by
  have htest := List.find?_some hfind
  exact of_decide_eq_true htest

theorem mem_of_leaseAt (hfind : leaseAt leases number = some lease) : lease ∈ leases :=
  List.mem_of_find?_eq_some hfind

theorem leaseAt_eq_some (hnodup : (leases.map fun lease ↦ lease.number).Nodup)
    (hmem : lease ∈ leases) : leaseAt leases lease.number = some lease := by
  cases hfind : leaseAt leases lease.number with
  | none => exact absurd (List.find?_eq_none.mp hfind lease hmem) (by simp)
  | some other =>
    have hnumber := number_of_leaseAt hfind
    rw [List.inj_on_of_nodup_map hnodup (mem_of_leaseAt hfind) hmem hnumber]

theorem leaseAt_map {f : FamilyLease → FamilyLease}
    (hf : ∀ lease, (f lease).number = lease.number) :
    leaseAt (leases.map f) number = (leaseAt leases number).map f := by
  unfold leaseAt
  rw [List.find?_map]
  congr 2
  funext lease
  simp only [Function.comp, hf]

theorem nameOf_map {f : FamilyLease → FamilyLease} (hf : ∀ lease, (f lease).number = lease.number)
    (hnodup : (leases.map fun lease ↦ lease.number).Nodup) (hmem : lease ∈ leases) :
    nameOf (leases.map f) lease.number = (f lease).hostname := by
  unfold nameOf
  rw [leaseAt_map hf, leaseAt_eq_some hnodup hmem]
  rfl

theorem nameOf_eq (hnodup : (leases.map fun lease ↦ lease.number).Nodup) (hmem : lease ∈ leases) :
    nameOf leases lease.number = lease.hostname := by
  unfold nameOf
  rw [leaseAt_eq_some hnodup hmem]
  rfl

end Lookup

namespace NameInv

variable {byFqdn : Bool} {s : NameState}

theorem change (h : NameInv byFqdn s) (number : ℕ) {change : FamilyLease → FamilyLease}
    (hchange : ∀ lease, (change lease).number = lease.number ∧
      (change lease).hostname = lease.hostname ∧
      (change lease).fqdn = lease.fqdn ∧ (change lease).ipv6 = lease.ipv6 ∧
      (lease.authName = true → (change lease).authName = true)) :
    NameInv byFqdn { s with leases := changeLease s.leases number change } := by
  set f : FamilyLease → FamilyLease :=
    fun lease ↦ if lease.number = number then change lease else lease
  have hf : ∀ lease, (f lease).number = lease.number ∧ (f lease).hostname = lease.hostname ∧
      (f lease).fqdn = lease.fqdn ∧ (f lease).ipv6 = lease.ipv6 ∧
      (lease.authName = true → (f lease).authName = true) := by
    intro lease
    dsimp only [f]
    split_ifs
    · exact hchange lease
    · exact ⟨rfl, rfl, rfl, rfl, id⟩
  have hkey : ∀ lease, (f lease).nameKey byFqdn = lease.nameKey byFqdn := by
    intro lease
    unfold Lease.nameKey
    rw [(hf lease).2.1, (hf lease).2.2.1]
  refine ⟨?_, ?_, ?_, ?_, ?_⟩
  · dsimp only [changeLease]
    rw [List.map_map]
    exact (List.map_congr_left fun lease _ ↦ (hf lease).1) ▸ h.numbers
  · intro lease hmem
    obtain ⟨old, hold, rfl⟩ := List.mem_map.mp hmem
    exact ((hf old).1).trans_lt (h.fresh old hold)
  · intro left hleft right hright hleft4 hright4 hsame
    obtain ⟨oldLeft, holdLeft, rfl⟩ := List.mem_map.mp hleft
    obtain ⟨oldRight, holdRight, rfl⟩ := List.mem_map.mp hright
    rw [hkey, hkey] at hsame
    exact (hf oldLeft).1.trans ((h.distinct oldLeft holdLeft oldRight holdRight
      ((hf oldLeft).2.2.2.1 ▸ hleft4) ((hf oldRight).2.2.2.1 ▸ hright4) hsame).trans
        (hf oldRight).1.symm)
  · intro lease hmem hconfigured
    obtain ⟨old, hold, rfl⟩ := List.mem_map.mp hmem
    exact (hf old).2.2.2.2 (h.flagged old hold ((hf old).1 ▸ hconfigured))
  · intro lease hmem hconfigured
    obtain ⟨old, hold, rfl⟩ := List.mem_map.mp hmem
    rw [(hf old).2.1]
    exact h.named old hold ((hf old).1 ▸ hconfigured)

theorem takesName_iff {call : NameCall} {lease other : FamilyLease} (hlease : lease.ipv6 = false) :
    takesName byFqdn call lease other = true ↔
      other.ipv6 = false ∧ sameName (other.nameKey byFqdn) (call.key byFqdn) = true := by
  unfold takesName Lease.nameKey NameCall.key
  cases byFqdn <;> simp [hlease, and_comm]

theorem nameKey_afterRename (call : NameCall) (taken : Option ℕ) (lease : FamilyLease) :
    (afterRename call taken lease).nameKey byFqdn =
      if lease.number = call.number then call.key byFqdn
      else if taken = some lease.number then none else lease.nameKey byFqdn := by
  unfold afterRename Lease.nameKey NameCall.key
  cases byFqdn <;> split_ifs <;> rfl

theorem not_sameName_afterRename (h : NameInv byFqdn s) {call : NameCall}
    {lease other : FamilyLease} (hlease4 : lease.ipv6 = false) (hother : other ∈ s.leases)
    (hother4 : other.ipv6 = false) (hnumber : other.number ≠ call.number) :
    sameName
      ((afterRename call ((nameTaken byFqdn s.leases call lease).map fun holder ↦ holder.number)
      other).nameKey byFqdn) (call.key byFqdn) = false := by
  rw [nameKey_afterRename, if_neg hnumber]
  split_ifs with htaken
  · rfl
  · refine Bool.eq_false_iff.mpr fun hsame ↦ ?_
    cases hholder : nameTaken byFqdn s.leases call lease with
    | none =>
      exact List.find?_eq_none.mp hholder other hother
        ((takesName_iff hlease4).mpr ⟨hother4, hsame⟩)
    | some holder =>
      obtain ⟨hholder4, hholds⟩ := (takesName_iff hlease4).mp (List.find?_some hholder)
      have heq :=
        h.distinct other hother holder (List.mem_of_find?_eq_some hholder) hother4 hholder4
        (sameName_trans hsame (sameName_symm hholds))
      rw [hholder, Option.map_some, heq] at htaken
      exact htaken rfl

theorem rename (h : NameInv byFqdn s) {call : NameCall} {lease : FamilyLease}
    (hlease : leaseAt s.leases call.number = some lease) :
    NameInv byFqdn
      { s with
        leases :=
        s.leases.map
          (afterRename call ((nameTaken byFqdn s.leases call lease).map fun holder ↦ holder.number))
        configured := configuredAfter call s.leases
          (s.leases.map (afterRename call ((nameTaken byFqdn s.leases call lease).map
            fun holder ↦ holder.number)))
          s.configured } := by
  set taken := (nameTaken byFqdn s.leases call lease).map fun holder ↦ holder.number with htaken
  have hmemLease := mem_of_leaseAt hlease
  have hnumberLease := number_of_leaseAt hlease
  -- the lease of the call, among those that have its number
  have htarget : ∀ old ∈ s.leases, old.number = call.number → old = lease := fun old hold hnumber ↦
    List.inj_on_of_nodup_map h.numbers hold hmemLease (hnumber.trans hnumberLease.symm)
  refine ⟨?_, ?_, ?_, ?_, ?_⟩
  · rw [List.map_map]
    exact (List.map_congr_left fun lease _ ↦ afterRename_number call taken lease) ▸ h.numbers
  · intro after hmem
    obtain ⟨old, hold, rfl⟩ := List.mem_map.mp hmem
    exact (afterRename_number call taken old).trans_lt (h.fresh old hold)
  · intro left hleft right hright hleft4 hright4 hsame
    obtain ⟨oldLeft, holdLeft, rfl⟩ := List.mem_map.mp hleft
    obtain ⟨oldRight, holdRight, rfl⟩ := List.mem_map.mp hright
    rw [afterRename_ipv6] at hleft4 hright4
    rw [afterRename_number, afterRename_number]
    by_cases hleftNumber : oldLeft.number = call.number
    · by_contra hne
      have hlease4 : lease.ipv6 = false := htarget oldLeft holdLeft hleftNumber ▸ hleft4
      have hfree := @NameInv.not_sameName_afterRename byFqdn s h call _ _ hlease4 holdRight hright4
        fun hnumber ↦
        hne (hleftNumber.trans hnumber.symm)
      rw [nameKey_afterRename call taken oldLeft, if_pos hleftNumber] at hsame
      exact Bool.eq_false_iff.mp hfree (sameName_symm hsame)
    · by_cases hrightNumber : oldRight.number = call.number
      · have hlease4 : lease.ipv6 = false := htarget oldRight holdRight hrightNumber ▸ hright4
        have hfree :=
          @NameInv.not_sameName_afterRename byFqdn s h call _ _ hlease4 holdLeft hleft4 hleftNumber
        rw [nameKey_afterRename call taken oldRight, if_pos hrightNumber] at hsame
        exact absurd hsame (Bool.eq_false_iff.mp hfree)
      · rw [nameKey_afterRename, nameKey_afterRename, if_neg hleftNumber,
          if_neg hrightNumber] at hsame
        split_ifs at hsame
        · exact absurd hsame (by simp [sameName_none])
        · exact absurd hsame (by simp [sameName_none])
        · exact absurd (sameName_symm hsame) (by simp [sameName_none])
        · exact h.distinct oldLeft holdLeft oldRight holdRight hleft4 hright4 hsame
  · intro after hmem hconfigured
    obtain ⟨old, hold, rfl⟩ := List.mem_map.mp hmem
    rw [afterRename_number] at hconfigured
    rcases configuredAfter_iff.mp hconfigured with ⟨hnumber, hauth, -⟩ | ⟨hwas, hname⟩
    · unfold afterRename
      rw [if_pos hnumber, hauth]
      exact Bool.or_true _
    · have hflag := h.flagged old hold hwas
      unfold afterRename
      split_ifs
      · exact (congrArg (· || call.auth) hflag).trans (Bool.true_or _)
      · exact hflag
      · exact hflag
  · intro after hmem hconfigured
    obtain ⟨old, hold, rfl⟩ := List.mem_map.mp hmem
    rw [afterRename_number] at hconfigured
    rw [← nameOf_map (afterRename_number call taken) h.numbers hold]
    exact named_of_configuredAfter (fun hwas ↦ nameOf_eq h.numbers hold ▸ h.named old hold hwas)
      hconfigured

theorem set (h : NameInv byFqdn s) (call : NameCall) :
    NameInv byFqdn (nameStep byFqdn s (.set call)) := by
  dsimp only [nameStep]
  cases hlease : leaseAt s.leases call.number with
  | none =>
    rw [leaseSetHostname_none hlease]
    -- there is no lease that the call could be for
    have hconfigured : ∀ lease ∈ s.leases, configuredAfter call s.leases s.leases s.configured
      lease.number = true →
        s.configured lease.number = true := by
      intro lease hmem hafter
      rcases configuredAfter_iff.mp hafter with ⟨hnumber, -⟩ | ⟨hwas, -⟩
      · exact absurd ((leaseAt_eq_some h.numbers hmem).symm.trans (hnumber ▸ hlease)) (by simp)
      · exact hwas
    exact
      { h with
        flagged := fun lease hmem hafter ↦ h.flagged lease hmem (hconfigured lease hmem hafter)
        named := fun lease hmem hafter ↦ h.named lease hmem (hconfigured lease hmem hafter) }
  | some lease =>
    have houtcome := @leaseSetHostname_outcome byFqdn _ _ _ hlease
    generalize leaseSetHostname byFqdn s.leases call = after at houtcome ⊢
    cases houtcome with
    | confirmed hsame hauth =>
      have hchange :=
        @NameInv.change byFqdn s h call.number (fun lease ↦ { lease with authName := true })
        fun _ ↦ ⟨rfl, rfl, rfl, rfl, fun _ ↦ rfl⟩
      refine { hchange with
        flagged := fun after hmem hconfigured ↦ ?_, named := fun after hmem hconfigured ↦ ?_ }
      · obtain ⟨old, hold, rfl⟩ := List.mem_map.mp hmem
        split_ifs at hconfigured ⊢ with hnumber
        · rfl
        · rcases configuredAfter_iff.mp hconfigured with ⟨hcall, -⟩ | ⟨hwas, -⟩
          · exact absurd hcall hnumber
          · exact h.flagged old hold hwas
      · have hname := nameOf_eq hchange.numbers hmem
        obtain ⟨old, hold, rfl⟩ := List.mem_map.mp hmem
        refine hname ▸ named_of_configuredAfter (fun hwas ↦ ?_) hconfigured
        have hnumber : ∀ l : FamilyLease,
          (if l.number = call.number then { l with authName := true } else l).number =
            l.number := fun l ↦ by split_ifs <;> rfl
        rw [hnumber] at hwas ⊢
        exact nameOf_eq h.numbers hold ▸ h.named old hold hwas
    | quiet hnot hauth =>
      have hconfigured : ∀ other ∈ s.leases, configuredAfter call s.leases s.leases s.configured
        other.number = true →
          s.configured other.number = true := by
        intro other _ hafter
        rcases configuredAfter_iff.mp hafter with ⟨hnumber, hcall, hsame⟩ | ⟨hwas, -⟩
        · have hname : nameOf s.leases other.number = lease.hostname := by
            unfold nameOf
            rw [hnumber, hlease]
            rfl
          rw [hname, hauth hcall] at hsame
          exact absurd hsame (by simp)
        · exact hwas
      exact
        { h with
          flagged := fun other hmem hafter ↦ h.flagged other hmem (hconfigured other hmem hafter)
          named := fun other hmem hafter ↦ h.named other hmem (hconfigured other hmem hafter) }
    | renamed hrenames => exact h.rename hlease

theorem step (h : NameInv byFqdn s) (event : NameEvent) :
    NameInv byFqdn (nameStep byFqdn s event) := by
  cases event with
  | set call => exact h.set call
  | prune target now =>
    have hsub : (s.leases.filter fun lease ↦ !pruned target now lease.toLease).Sublist s.leases :=
      List.filter_sublist
    exact
      { numbers := h.numbers.sublist (hsub.map _)
        fresh := fun lease hmem ↦ h.fresh lease (hsub.subset hmem)
        distinct := fun left hleft right hright ↦
          h.distinct left (hsub.subset hleft) right (hsub.subset hright)
        flagged := fun lease hmem ↦ h.flagged lease (hsub.subset hmem)
        named := fun lease hmem ↦ h.named lease (hsub.subset hmem) }
  | allocate addr ipv6 =>
    have hold : ∀ lease ∈ (nameStep byFqdn s (.allocate addr ipv6)).leases,
        (nameStep byFqdn s (.allocate addr ipv6)).configured lease.number = true →
          lease ∈ s.leases ∧ s.configured lease.number = true := by
      intro lease hmem hconfigured
      dsimp only [nameStep] at hconfigured
      split_ifs at hconfigured with hnew
      rcases List.mem_cons.mp hmem with rfl | hold
      · exact absurd rfl hnew
      · exact ⟨hold, hconfigured⟩
    refine ⟨?_, ?_, ?_, ?_, ?_⟩
    · refine List.nodup_cons.mpr ⟨fun hmem ↦ ?_, h.numbers⟩
      obtain ⟨lease, hlease, hnumber⟩ := List.mem_map.mp hmem
      exact (h.fresh lease hlease).ne hnumber
    · intro lease hmem
      rcases List.mem_cons.mp hmem with rfl | hold
      · exact Nat.lt_succ_self _
      · exact (h.fresh lease hold).trans (Nat.lt_succ_self _)
    · intro left hleft right hright hleft4 hright4 hsame
      rcases List.mem_cons.mp hleft with rfl | hleft
      · exact absurd hsame (by unfold Lease.nameKey; split_ifs <;> simp [sameName_none])
      · rcases List.mem_cons.mp hright with rfl | hright
        · exact absurd (sameName_symm hsame)
            (by unfold Lease.nameKey; split_ifs <;> simp [sameName_none])
        · exact h.distinct left hleft right hright hleft4 hright4 hsame
    · intro lease hmem hconfigured
      obtain ⟨hmem, hwas⟩ := hold lease hmem hconfigured
      exact h.flagged lease hmem hwas
    · intro lease hmem hconfigured
      obtain ⟨hmem, hwas⟩ := hold lease hmem hconfigured
      exact h.named lease hmem hwas
  | setHwaddr number hwaddr hwType clid => exact h.change number fun _ ↦ ⟨rfl, rfl, rfl, rfl, id⟩
  | setExpires number len now => exact h.change number fun _ ↦ ⟨rfl, rfl, rfl, rfl, id⟩

theorem run (byFqdn : Bool) (events : List NameEvent) : NameInv byFqdn (nameRun byFqdn events) := by
  induction events using List.reverseRecOn with
  | nil =>
    exact ⟨List.nodup_nil,
      by simp [nameRun], by simp [nameRun], by simp [nameRun], by simp [nameRun]⟩
  | append_singleton events event ih =>
    rw [nameRun_append]
    exact ih.step event

end NameInv

/-! ### The flag -/

/-- No two IPv4 leases have the same name, and the flag says that a name came from the
configuration. -/
structure NamesKept (byFqdn : Bool) (s : NameState) : Prop where
  distinct : ∀ left ∈ s.leases, ∀ right ∈ s.leases, left.ipv6 = false → right.ipv6 = false →
    sameName (left.nameKey byFqdn) (right.nameKey byFqdn) = true → left.number = right.number
  origin : ∀ lease ∈ s.leases, lease.authName = true → s.configured lease.number = true

def ClientKeeps (byFqdn : Bool) (s : NameState) (call : NameCall) : Prop :=
  call.auth = false → call.name ≠ none → ∀ lease ∈ s.leases, s.configured lease.number = true →
    lease ∈ leaseSetHostname byFqdn s.leases call

/-- A call that gets to the end leaves no flag without a name of the configuration. With a name of
the configuration, there is memory for it, and no other lease with the flag loses it. Without one,
its lease does not have the flag. -/
def OriginKept (byFqdn : Bool) (leases : List FamilyLease) (call : NameCall) : Prop :=
  ∀ lease, leaseAt leases call.number = some lease → Renames byFqdn leases call lease →
    (call.auth = true → call.newName ≠ none ∧
      ∀ holder, nameTaken byFqdn leases call lease = some holder →
      holder.number ≠ lease.number → holder.authName = false) ∧
    (call.auth = false → lease.authName = false)

theorem sameName_self (name : List UInt8) : sameName (some name) (some name) = true := by
  simp [sameName, hostnameIsequal]

theorem newName_eq {call : NameCall} (h : call.newName ≠ none) : call.newName = call.name := by
  unfold NameCall.newName at h ⊢
  split_ifs at h ⊢
  · rfl
  · exact absurd rfl h

section Flag

variable {byFqdn : Bool} {s : NameState} {call : NameCall}

theorem origin_set (h : NameInv byFqdn s)
    (horigin : ∀ lease ∈ s.leases, lease.authName = true → s.configured lease.number = true)
    (hkept : OriginKept byFqdn s.leases call) {after : FamilyLease}
    (hmem : after ∈ (nameStep byFqdn s (.set call)).leases) (hflag : after.authName = true) :
    (nameStep byFqdn s (.set call)).configured after.number = true := by
  dsimp only [nameStep] at hmem ⊢
  cases hlease : leaseAt s.leases call.number with
  | none =>
    rw [leaseSetHostname_none hlease] at hmem ⊢
    exact configuredAfter_iff.mpr (.inr ⟨horigin after hmem hflag, rfl⟩)
  | some lease =>
    have houtcome := @leaseSetHostname_outcome byFqdn _ _ _ hlease
    generalize leaseSetHostname byFqdn s.leases call = leases at houtcome hmem ⊢
    cases houtcome with
    | quiet hnot hauth => exact configuredAfter_iff.mpr (.inr ⟨horigin after hmem hflag, rfl⟩)
    | confirmed hsame hauth =>
      obtain ⟨old, hold, rfl⟩ := List.mem_map.mp hmem
      have hnumber : ∀ l : FamilyLease, (if l.number = call.number then { l with authName := true }
        else l).number =
          l.number := fun l ↦ by split_ifs <;> rfl
      have hname := nameOf_map hnumber h.numbers hold
      rw [hnumber]
      refine configuredAfter_iff.mpr ?_
      unfold changeLease
      rw [hname, nameOf_eq h.numbers hold]
      by_cases hcall : old.number = call.number
      · obtain rfl : old = lease := List.inj_on_of_nodup_map h.numbers hold (mem_of_leaseAt hlease)
          (hcall.trans (number_of_leaseAt hlease).symm)
        rw [if_pos hcall]
        exact .inl ⟨hcall, hauth, hsame⟩
      · rw [if_neg hcall] at hflag ⊢
        exact .inr ⟨horigin old hold hflag, rfl⟩
    | renamed hrenames =>
      obtain ⟨old, hold, rfl⟩ := List.mem_map.mp hmem
      obtain ⟨hauthKept, hclientKept⟩ := hkept lease hlease hrenames
      rw [afterRename_number]
      refine configuredAfter_iff.mpr ?_
      rw [nameOf_map (afterRename_number _ _) h.numbers hold, nameOf_eq h.numbers hold]
      unfold afterRename at hflag ⊢
      split_ifs at hflag ⊢ with hcall htaken
      · obtain rfl : old = lease := List.inj_on_of_nodup_map h.numbers hold (mem_of_leaseAt hlease)
          (hcall.trans (number_of_leaseAt hlease).symm)
        cases hauth : call.auth with
        | false =>
          have hnone : (old.authName || call.auth) = true := hflag
          rw [hclientKept hauth, hauth] at hnone
          exact absurd hnone (by simp)
        | true =>
          have hname := (hauthKept hauth).1
          refine .inl ⟨hcall, rfl, ?_⟩
          rw [← newName_eq hname]
          obtain ⟨name, heq⟩ := Option.ne_none_iff_exists'.mp hname
          rw [heq]
          exact sameName_self name
      · -- the name of a lease with the flag was taken
        obtain ⟨holder, hholder, hnumber⟩ := Option.map_eq_some_iff.mp htaken
        obtain rfl : holder = old :=
          List.inj_on_of_nodup_map h.numbers (List.mem_of_find?_eq_some hholder) hold hnumber
        have hauth := hrenames.allowed holder hholder hflag
        have hother : holder.number ≠ lease.number :=
          fun heq ↦ hcall (heq.trans (number_of_leaseAt hlease))
        exact absurd hflag (Bool.eq_false_iff.mp ((hauthKept hauth).2 holder hholder hother))
      · exact .inr ⟨horigin old hold hflag, rfl⟩

theorem originKept_of_origin (h : NameInv byFqdn s)
    (horigin : ∀ lease ∈ (nameStep byFqdn s (.set call)).leases, lease.authName = true →
      (nameStep byFqdn s (.set call)).configured lease.number = true) :
    OriginKept byFqdn s.leases call := by
  intro lease hlease hrenames
  have hmemLease := mem_of_leaseAt hlease
  have hnumberLease := number_of_leaseAt hlease
  have houtcome := @leaseSetHostname_outcome byFqdn _ _ _ hlease
  dsimp only [nameStep] at horigin
  generalize leaseSetHostname byFqdn s.leases call = leases at houtcome horigin
  cases houtcome with
  | quiet hnot => exact absurd hrenames hnot
  | confirmed hsame => exact absurd hsame (Bool.eq_false_iff.mp hrenames.other)
  | renamed =>
    set taken := (nameTaken byFqdn s.leases call lease).map fun holder ↦ holder.number with htaken
    -- a flag after the call means a name of the call, or one that was there before
    have hafter : ∀ old ∈ s.leases, (afterRename call taken old).authName = true →
        (old.number = call.number ∧ call.auth = true ∧
          sameName (afterRename call taken old).hostname call.name = true) ∨
        (s.configured old.number = true ∧
          (afterRename call taken old).hostname = old.hostname) := by
      intro old hold hflag
      have hconfigured := horigin _ (List.mem_map_of_mem hold) hflag
      rw [afterRename_number, configuredAfter_iff, nameOf_map (afterRename_number _ _)
        h.numbers hold, nameOf_eq h.numbers hold] at hconfigured
      exact hconfigured
    have hlast : afterRename call taken lease =
        { lease with hostname := call.newName, fqdn := call.newFqdn, authName := lease.authName ||
          call.auth } :=
      if_pos hnumberLease
    refine ⟨fun hauth ↦ ⟨fun hnone ↦ ?_, fun holder hholder hother ↦ ?_⟩, fun hauth ↦ ?_⟩
    · have hflag := hafter lease hmemLease (by rw [hlast, hauth]; exact Bool.or_true _)
      rw [hlast, hnone] at hflag
      rcases hflag with ⟨-, -, hsame⟩ | ⟨hwas, hname⟩
      · exact absurd hsame (by simp [sameName_none])
      · exact h.named lease hmemLease hwas hname.symm
    · refine Bool.eq_false_iff.mpr fun hholderFlag ↦ ?_
      have hmemHolder := List.mem_of_find?_eq_some hholder
      have hcall : holder.number ≠ call.number := fun heq ↦ hother (heq.trans hnumberLease.symm)
      have hkilled : afterRename call taken holder = holder.killName := by
        unfold afterRename
        rw [if_neg hcall, if_pos (by rw [htaken, hholder]; rfl)]
      have hflag := hafter holder hmemHolder (by rw [hkilled]; exact hholderFlag)
      rcases hflag with ⟨hnumber, -⟩ | ⟨hwas, hname⟩
      · exact hcall hnumber
      · rw [hkilled] at hname
        exact h.named holder hmemHolder hwas hname.symm
    · refine Bool.eq_false_iff.mpr fun hleaseFlag ↦ ?_
      have hflag :=
        hafter lease hmemLease
          (by rw [hlast]; exact (congrArg (· || call.auth) hleaseFlag).trans (Bool.true_or _))
      rcases hflag with ⟨-, hcallAuth, -⟩ | ⟨hwas, hname⟩
      · exact absurd (hcallAuth.symm.trans hauth) (by simp)
      · have hnew : call.newName = lease.hostname := by rwa [hlast] at hname
        have hsome : call.newName ≠ none :=
          fun hnone ↦ h.named lease hmemLease hwas (hnew.symm.trans hnone)
        have hsame := hrenames.other
        rw [← hnew, ← newName_eq hsome] at hsame
        obtain ⟨name, heq⟩ := Option.ne_none_iff_exists'.mp hsome
        rw [heq, sameName_self] at hsame
        exact absurd hsame (by simp)

theorem clientKeeps (h : NameInv byFqdn s) (hkept : OriginKept byFqdn s.leases call) :
    ClientKeeps byFqdn s call := by
  intro hauth _ other hmem hconfigured
  have hflag := h.flagged other hmem hconfigured
  cases hlease : leaseAt s.leases call.number with
  | none =>
    rw [leaseSetHostname_none hlease]
    exact hmem
  | some lease =>
    have houtcome := @leaseSetHostname_outcome byFqdn _ _ _ hlease
    generalize leaseSetHostname byFqdn s.leases call = leases at houtcome ⊢
    cases houtcome with
    | confirmed _ hcall => exact absurd (hcall.symm.trans hauth) (by simp)
    | quiet => exact hmem
    | renamed hrenames =>
      have hclient := (hkept lease hlease hrenames).2 hauth
      refine List.mem_map.mpr ⟨other, hmem, ?_⟩
      unfold afterRename
      rw [if_neg, if_neg]
      · intro htaken
        obtain ⟨holder, hholder, hnumber⟩ := Option.map_eq_some_iff.mp htaken
        obtain rfl : holder = other :=
          List.inj_on_of_nodup_map h.numbers (List.mem_of_find?_eq_some hholder) hmem hnumber
        exact absurd ((hrenames.allowed holder hholder hflag).symm.trans hauth) (by simp)
      · intro hnumber
        obtain rfl : other = lease :=
          List.inj_on_of_nodup_map h.numbers hmem (mem_of_leaseAt hlease)
          (hnumber.trans (number_of_leaseAt hlease).symm)
        exact absurd (hflag.symm.trans hclient) (by simp)

end Flag

theorem origin_run (events : List NameEvent)
    (hkept : ∀ before call, before ++ [.set call] <+: events →
      OriginKept byFqdn (nameRun byFqdn before).leases call) :
    ∀ lease ∈ (nameRun byFqdn events).leases, lease.authName = true →
      (nameRun byFqdn events).configured lease.number = true := by
  induction events using List.reverseRecOn with
  | nil => simp [nameRun]
  | append_singleton events event ih =>
    have hbefore := ih fun before call hfront ↦
      hkept before call (hfront.trans (List.prefix_append events [event]))
    have hinv := NameInv.run byFqdn events
    rw [nameRun_append]
    cases event with
    | set call =>
      exact fun lease hmem ↦ origin_set hinv hbefore (hkept events call List.prefix_rfl) hmem
    | prune target now => exact fun lease hmem ↦ hbefore lease (List.mem_filter.mp hmem).1
    | allocate addr ipv6 =>
      intro lease hmem hflag
      rcases List.mem_cons.mp hmem with rfl | hold
      · exact absurd hflag (by simp)
      · exact (if_neg (hinv.fresh lease hold).ne).trans (hbefore lease hold hflag)
    | setHwaddr number hwaddr hwType clid =>
      intro lease hmem hflag
      obtain ⟨old, hold, rfl⟩ := List.mem_map.mp hmem
      split_ifs at hflag ⊢ <;> exact hbefore old hold hflag
    | setExpires number len now =>
      intro lease hmem hflag
      obtain ⟨old, hold, rfl⟩ := List.mem_map.mp hmem
      split_ifs at hflag ⊢ <;> exact hbefore old hold hflag

/-- In every run names are kept, and clients take none from the configuration: that is so if and
only if every call of the run meets the condition. -/
theorem namesKept_iff (byFqdn : Bool) (events : List NameEvent) :
    (∀ before, before <+: events → NamesKept byFqdn (nameRun byFqdn before) ∧
      ∀ call, before ++ [.set call] <+: events → ClientKeeps byFqdn (nameRun byFqdn before) call) ↔
    ∀ before call, before ++ [.set call] <+: events → OriginKept byFqdn
      (nameRun byFqdn before).leases call := by
  constructor
  · intro h before call hfront
    have hafter := (h (before ++ [.set call]) hfront).1.origin
    rw [nameRun_append] at hafter
    exact originKept_of_origin (NameInv.run byFqdn before) hafter
  · intro h before hfront
    have hinv := NameInv.run byFqdn before
    refine ⟨⟨hinv.distinct, origin_run before fun first call hfirst ↦
      h first call (hfirst.trans hfront)⟩, ?_⟩
    exact fun call hcall ↦ clientKeeps hinv (h before call hcall)

/-! ### Calls that keep names -/

/-- Whoever calls for a lease with a configured name calls for it with configured names only, has
memory for them, and gives other leases other ones. -/
structure OwnNames (byFqdn : Bool) (events : List NameEvent) : Prop where
  memory : ∀ call, .set call ∈ events → call.auth = true → call.newName ≠ none
  source : ∀ call other, .set call ∈ events → .set other ∈ events → call.number = other.number →
    call.auth = other.auth
  apart : ∀ call other, .set call ∈ events → .set other ∈ events → call.auth = true →
    other.auth = true →
    call.number ≠ other.number → sameName (call.key byFqdn) (other.key byFqdn) = false

/-- What a lease has after a call is what it had, or it is from the call. -/
theorem exists_of_mem_leaseSetHostname {leases : List FamilyLease} {call : NameCall}
    {after : FamilyLease} (hmem : after ∈ leaseSetHostname byFqdn leases call) :
    ∃ old ∈ leases, after.number = old.number ∧
      (after.authName = true → old.authName = true ∨ old.number = call.number ∧ call.auth = true) ∧
      (after.nameKey byFqdn = none ∨ after.nameKey byFqdn = old.nameKey byFqdn ∨
        old.number = call.number ∧ after.nameKey byFqdn = call.key byFqdn) := by
  cases hlease : leaseAt leases call.number with
  | none =>
    rw [leaseSetHostname_none hlease] at hmem
    exact ⟨after, hmem, rfl, .inl, .inr (.inl rfl)⟩
  | some lease =>
    have houtcome := @leaseSetHostname_outcome byFqdn _ _ _ hlease
    generalize leaseSetHostname byFqdn leases call = last at houtcome hmem
    cases houtcome with
    | quiet => exact ⟨after, hmem, rfl, .inl, .inr (.inl rfl)⟩
    | confirmed _ hauth =>
      obtain ⟨old, hold, rfl⟩ := List.mem_map.mp hmem
      refine ⟨old, hold, ?_⟩
      split_ifs with hcall
      · exact ⟨rfl, fun _ ↦ .inr ⟨hcall, hauth⟩, .inr (.inl rfl)⟩
      · exact ⟨rfl, .inl, .inr (.inl rfl)⟩
    | renamed =>
      obtain ⟨old, hold, rfl⟩ := List.mem_map.mp hmem
      refine ⟨old, hold, afterRename_number .., fun hflag ↦ ?_, ?_⟩
      · unfold afterRename at hflag
        split_ifs at hflag with hcall
        · exact ((Bool.or_eq_true _ _).mp hflag).imp_right fun hauth ↦ ⟨hcall, hauth⟩
        · exact .inl hflag
        · exact .inl hflag
      · rw [NameInv.nameKey_afterRename]
        split_ifs with hcall
        · exact .inr (.inr ⟨hcall, rfl⟩)
        · exact .inl rfl
        · exact .inr (.inl rfl)

/-- Every flag and every name of the leases is from a call. -/
def Traced (byFqdn : Bool) (events : List NameEvent) (leases : List FamilyLease) : Prop :=
  ∀ lease ∈ leases,
    (lease.authName = true → ∃ call, .set call ∈ events ∧ call.number = lease.number ∧
      call.auth = true) ∧
    (lease.nameKey byFqdn = none ∨
      ∃ call, .set call ∈ events ∧ call.number = lease.number ∧
        lease.nameKey byFqdn = call.key byFqdn)

theorem traced_run (events : List NameEvent) :
    Traced byFqdn events (nameRun byFqdn events).leases := by
  induction events using List.reverseRecOn with
  | nil => simp [Traced, nameRun]
  | append_singleton events event ih =>
    have hlater : Traced byFqdn (events ++ [event]) (nameRun byFqdn events).leases :=
      fun lease hmem ↦
      ⟨fun hflag ↦ ((ih lease hmem).1 hflag).imp fun call ↦ .imp_left (List.mem_append_left _),
        (ih lease hmem).2.imp_right fun h ↦ h.imp fun call ↦ .imp_left (List.mem_append_left _)⟩
    have hchange : ∀ (number : ℕ) (change : FamilyLease → FamilyLease),
      (∀ lease, (change lease).number = lease.number ∧
        (change lease).authName = lease.authName ∧
          (change lease).nameKey byFqdn = lease.nameKey byFqdn) →
          Traced byFqdn (events ++ [event]) (changeLease (nameRun byFqdn events).leases
            number change) := by
      intro number change hsame lease hmem
      obtain ⟨old, hold, rfl⟩ := List.mem_map.mp hmem
      split_ifs
      · rw [(hsame old).1, (hsame old).2.1, (hsame old).2.2]
        exact hlater old hold
      · exact hlater old hold
    rw [nameRun_append]
    cases event with
    | set call =>
      intro lease hmem
      obtain ⟨old, hold, hnumber, hauth, hname⟩ := exists_of_mem_leaseSetHostname hmem
      have hcall : NameEvent.set call ∈ events ++ [.set call] :=
        List.mem_append_right _ List.mem_cons_self
      rw [hnumber]
      constructor
      · intro hflag
        rcases hauth hflag with hwas | ⟨heq, hauth⟩
        · exact (hlater old hold).1 hwas
        · exact ⟨call, hcall, heq.symm, hauth⟩
      · rcases hname with hnone | hsame | ⟨heq, hkey⟩
        · exact .inl hnone
        · rw [hsame]
          exact (hlater old hold).2
        · exact .inr ⟨call, hcall, heq.symm, hkey⟩
    | prune target now => exact fun lease hmem ↦ hlater lease (List.mem_filter.mp hmem).1
    | allocate addr ipv6 =>
      intro lease hmem
      rcases List.mem_cons.mp hmem with rfl | hold
      · exact ⟨fun hflag ↦
          absurd hflag (by simp), .inl (by unfold Lease.nameKey; split_ifs <;> rfl)⟩
      · exact hlater lease hold
    | setHwaddr number hwaddr hwType clid => exact hchange number _ fun _ ↦ ⟨rfl, rfl, rfl⟩
    | setExpires number len now => exact hchange number _ fun _ ↦ ⟨rfl, rfl, rfl⟩

theorem OwnNames.originKept {events before : List NameEvent} {call : NameCall}
    (h : OwnNames byFqdn events) (hfront : before ++ [.set call] <+: events) :
    OriginKept byFqdn (nameRun byFqdn before).leases call := by
  have hbefore : ∀ other, .set other ∈ before → .set other ∈ events := fun other hmem ↦
    hfront.subset (List.mem_append_left _ hmem)
  have hcall : .set call ∈ events := hfront.subset (List.mem_append_right _ List.mem_cons_self)
  -- a lease with the flag is one of those for which configured names are given
  have hflagged : ∀ lease ∈ (nameRun byFqdn before).leases, lease.authName = true →
      ∀ other, .set other ∈ events → other.number = lease.number → other.auth = true := by
    intro lease hmem hflag other hother hnumber
    obtain ⟨first, hfirst, hsame, hauth⟩ := (traced_run before lease hmem).1 hflag
    rw [← hauth]
    exact h.source other first hother (hbefore first hfirst) (hnumber.trans hsame.symm)
  intro lease hlease hrenames
  have hmem := mem_of_leaseAt hlease
  have hnumber := number_of_leaseAt hlease
  refine ⟨fun hauth ↦ ⟨h.memory call hcall hauth, fun holder hholder hother ↦ ?_⟩, fun hauth ↦ ?_⟩
  · refine Bool.eq_false_iff.mpr fun hflag ↦ ?_
    have hmemHolder := List.mem_of_find?_eq_some hholder
    have htakes : sameName (holder.nameKey byFqdn) (call.key byFqdn) = true := by
      have := List.find?_some hholder
      unfold takesName at this
      unfold Lease.nameKey NameCall.key
      cases byFqdn <;> simp_all
    rcases (traced_run before holder hmemHolder).2 with hnone | ⟨first, hfirst, hsame, hkey⟩
    · rw [hnone, sameName_none] at htakes
      exact absurd htakes (by simp)
    · rw [hkey] at htakes
      have hfirstAuth := hflagged holder hmemHolder hflag first (hbefore first hfirst) hsame
      have hne : first.number ≠ call.number := by
        rw [hsame, ← hnumber]
        exact hother
      rw [h.apart first call (hbefore first hfirst) hcall hfirstAuth hauth hne] at htakes
      exact absurd htakes (by simp)
  · refine Bool.eq_false_iff.mpr fun hflag ↦ ?_
    rw [hflagged lease hmem hflag call hcall hnumber.symm] at hauth
    exact absurd hauth (by simp)

theorem OwnNames.namesKept {events before : List NameEvent} (h : OwnNames byFqdn events)
    (hfront : before <+: events) : NamesKept byFqdn (nameRun byFqdn before) :=
  ⟨(NameInv.run byFqdn before).distinct, origin_run before fun _ _ hfirst ↦
    h.originKept (hfirst.trans hfront)⟩

/-- A host with two network cards has one name, and comes with the second one while the lease of the
first one still runs: the first lease keeps the flag, and the name that its client gives it next
counts as one of the configuration. -/
theorem not_namesKept_secondCard :
    ¬NamesKept false (nameRun false
      [.allocate 0xc0a80002 false, .allocate 0xc0a80003 false,
        .set { number := 0, name := some [104], auth := true, domain := none,
               nameMemory := true, fqdnMemory := true },
        .set { number := 1, name := some [104], auth := true, domain := none,
               nameMemory := true, fqdnMemory := true },
        .set { number := 0, name := some [99], auth := false, domain := none
               nameMemory := true, fqdnMemory := true }]) := by
  intro h
  have hflag : ∀ s : NameState,
    (s.leases.any fun lease ↦ lease.authName && !s.configured lease.number) = true →
      ¬NamesKept false s := by
    intro s hany hkept
    obtain ⟨lease, hmem, hlease⟩ := List.any_eq_true.mp hany
    obtain ⟨hauth, hnot⟩ := (Bool.and_eq_true _ _).mp hlease
    rw [hkept.origin lease hmem hauth] at hnot
    exact absurd hnot (by simp)
  exact hflag _ (by decide +kernel) h

end CrossBreeder.Dnsmasq
