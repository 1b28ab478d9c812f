import CrossBreeder.Dnsmasq.LeaseOwners

/-!
# Names of leases

A name belongs to one lease at most: whoever gets it takes it from the lease that has it
(`NamesInv`). With `OPT_DHCP_FQDN` that is so for names with their domains. `leasesInv_of_reachable`
collects what is known about the leases of every table: their names, their hardware addresses, and
how many there are.
-/

namespace CrossBreeder.Dnsmasq

open Foundation

/-! ### Equal names -/

namespace LeaseTable

theorem sameName_symm {left right : Option (List UInt8)} (h : sameName left right = true) :
    sameName right left = true := by
  cases left <;> cases right <;> simp_all [sameName, hostnameIsequal]

theorem sameName_trans {left middle right : Option (List UInt8)}
    (hleft : sameName left middle = true) (hright : sameName middle right = true) :
    sameName left right = true := by
  cases left <;> cases middle <;> cases right <;> simp_all [sameName, hostnameIsequal]

theorem sameName_none (right : Option (List UInt8)) : sameName none right = false := rfl

end LeaseTable

open LeaseTable

def Lease.nameKey (byFqdn : Bool) (lease : Lease) : Option (List UInt8) :=
  if byFqdn then lease.fqdn else lease.hostname

theorem Lease.nameKey_killName (byFqdn : Bool) (lease : Lease) :
    lease.killName.nameKey byFqdn = none := by
  unfold Lease.nameKey
  split_ifs <;> rfl

structure NamesInv (env : DhcpEnv) (configs : List HostConfig) (table : LeaseTable) : Prop where
  names : ∀ lease ∈ table.leases, ∀ name, lease.hostname = some name → LeaseNameOk configs name
  fqdns : ∀ lease ∈ table.leases, lease.fqdn = lease.hostname.bind fun name ↦
    qualify name (env.getDomain lease.addr)
  distinct : ∀ left ∈ table.leases, ∀ right ∈ table.leases,
    sameName (left.nameKey env.byFqdn) (right.nameKey env.byFqdn) = true →
      left.number = right.number

variable {lease : Lease}

namespace NamesInv

variable {env : DhcpEnv} {configs : List HostConfig} {table last : LeaseTable}

theorem of_sublist {f : Lease → Lease}
    (hf : ∀ lease, (f lease).number = lease.number ∧ (f lease).addr = lease.addr ∧
      (f lease).hostname = lease.hostname ∧ (f lease).fqdn = lease.fqdn)
    (hleases : ∀ lease ∈ last.leases, ∃ old ∈ table.leases, lease = f old)
    (h : NamesInv env configs table) : NamesInv env configs last where
  names := by
    intro lease hmem name hname
    obtain ⟨old, hold, rfl⟩ := hleases lease hmem
    exact h.names old hold name ((hf old).2.2.1 ▸ hname)
  fqdns := by
    intro lease hmem
    obtain ⟨old, hold, rfl⟩ := hleases lease hmem
    rw [(hf old).2.2.2, (hf old).2.2.1, (hf old).2.1]
    exact h.fqdns old hold
  distinct := by
    intro left hleft right hright hsame
    obtain ⟨oldLeft, holdLeft, rfl⟩ := hleases left hleft
    obtain ⟨oldRight, holdRight, rfl⟩ := hleases right hright
    rw [(hf oldLeft).1, (hf oldRight).1]
    refine h.distinct oldLeft holdLeft oldRight holdRight ?_
    unfold Lease.nameKey at hsame ⊢
    rwa [(hf oldLeft).2.2.1, (hf oldLeft).2.2.2, (hf oldRight).2.2.1, (hf oldRight).2.2.2] at hsame

theorem update (h : NamesInv env configs table) (number : ℕ) {change : Lease → Lease}
    (hchange : ∀ lease, (change lease).number = lease.number ∧ (change lease).addr = lease.addr ∧
      (change lease).hostname = lease.hostname ∧ (change lease).fqdn = lease.fqdn) :
    NamesInv env configs (table.update number change) := by
  refine of_sublist (f := fun lease ↦ if lease.number = number then change lease else lease) ?_ ?_ h
  · intro lease
    split_ifs
    · exact hchange lease
    · exact ⟨rfl, rfl, rfl, rfl⟩
  · intro lease hmem
    obtain ⟨old, hold, rfl⟩ := List.mem_map.mp hmem
    exact ⟨old, hold, rfl⟩

theorem prune (h : NamesInv env configs table) (target : Option ℕ) (now : ℕ) :
    NamesInv env configs (table.prune target now) :=
  of_sublist (f := fun lease ↦ lease) (fun _ ↦ ⟨rfl, rfl, rfl, rfl⟩)
    (fun lease hmem ↦ ⟨lease, (List.mem_filter.mp hmem).1, rfl⟩) h

theorem allocate4 (h : NamesInv env configs table) {addr : UInt32}
    (halloc : table.allocate4 addr = some (last, lease)) : NamesInv env configs last := by
  unfold LeaseTable.allocate4 at halloc
  split_ifs at halloc
  simp only [Option.some.injEq, Prod.mk.injEq] at halloc
  obtain ⟨rfl, rfl⟩ := halloc
  refine ⟨?_, ?_, ?_⟩
  · intro lease hmem name hname
    rcases List.mem_cons.mp hmem with rfl | hold
    · exact absurd hname (by simp)
    · exact h.names lease hold name hname
  · intro lease hmem
    rcases List.mem_cons.mp hmem with rfl | hold
    · rfl
    · exact h.fqdns lease hold
  · intro left hleft right hright hsame
    rcases List.mem_cons.mp hleft with rfl | hleft
    · exact absurd hsame (by unfold Lease.nameKey; split_ifs <;> simp [sameName_none])
    · rcases List.mem_cons.mp hright with rfl | hright
      · exact absurd (sameName_symm hsame)
          (by unfold Lease.nameKey; split_ifs <;> simp [sameName_none])
      · exact h.distinct left hleft right hright hsame

theorem killName (h : NamesInv env configs table) (number : ℕ) :
    NamesInv env configs (table.update number Lease.killName) := by
  have hleases : ∀ lease ∈ (table.update number Lease.killName).leases, ∃ old ∈ table.leases,
      lease = old ∨ lease = old.killName := by
    intro lease hmem
    obtain ⟨old, hold, rfl⟩ := List.mem_map.mp hmem
    refine ⟨old, hold, ?_⟩
    split_ifs
    · exact .inr rfl
    · exact .inl rfl
  refine ⟨?_, ?_, ?_⟩
  · intro lease hmem name hname
    obtain ⟨old, hold, rfl | rfl⟩ := hleases lease hmem
    · exact h.names lease hold name hname
    · exact absurd hname (by simp [Lease.killName])
  · intro lease hmem
    obtain ⟨old, hold, rfl | rfl⟩ := hleases lease hmem
    · exact h.fqdns lease hold
    · rfl
  · intro left hleft right hright hsame
    obtain ⟨oldLeft, holdLeft, rfl | rfl⟩ := hleases left hleft
    · obtain ⟨oldRight, holdRight, rfl | rfl⟩ := hleases right hright
      · exact h.distinct left holdLeft right holdRight hsame
      · rw [Lease.nameKey_killName] at hsame
        exact absurd (sameName_symm hsame) (by simp [sameName_none])
    · rw [Lease.nameKey_killName] at hsame
      exact absurd hsame (by simp [sameName_none])

/-- A lease gets a name that no other lease has. -/
theorem giveName (h : NamesInv env configs table) {name : List UInt8} (auth : Bool)
    (hok : LeaseNameOk configs name) (haddr : ∀ l ∈ table.leases, l.number = lease.number →
      l.addr = lease.addr)
    (hfree : ∀ l ∈ table.leases, l.number ≠ lease.number → sameName (l.nameKey env.byFqdn)
      (if env.byFqdn then qualify name (env.getDomain lease.addr) else some name) = false) :
    NamesInv env configs
      (table.giveName lease.number name (qualify name (env.getDomain lease.addr)) auth) := by
  have hleases : ∀ after ∈ (table.giveName lease.number name
    (qualify name (env.getDomain lease.addr)) auth).leases,
      ∃ old ∈ table.leases, (old.number ≠ lease.number ∧ after = old) ∨
        (old.number = lease.number ∧ after = { old with
          hostname := some name
          fqdn := qualify name (env.getDomain lease.addr)
          authName := old.authName || auth }) := by
    intro after hmem
    obtain ⟨old, hold, rfl⟩ := List.mem_map.mp hmem
    refine ⟨old, hold, ?_⟩
    split_ifs with hnumber
    · exact .inr ⟨hnumber, rfl⟩
    · exact .inl ⟨hnumber, rfl⟩
  refine ⟨?_, ?_, ?_⟩
  · intro after hmem other hother
    obtain ⟨old, hold, ⟨-, rfl⟩ | ⟨-, rfl⟩⟩ := hleases after hmem
    · exact h.names after hold other hother
    · exact Option.some.inj hother ▸ hok
  · intro after hmem
    obtain ⟨old, hold, ⟨-, rfl⟩ | ⟨hnumber, rfl⟩⟩ := hleases after hmem
    · exact h.fqdns after hold
    · dsimp only [Option.bind_some]
      rw [haddr old hold hnumber]
  · intro left hleft right hright hsame
    obtain ⟨oldLeft, holdLeft, ⟨hleftNumber, rfl⟩ | ⟨hleftNumber, rfl⟩⟩ := hleases left hleft
    · obtain ⟨oldRight, holdRight, ⟨-, rfl⟩ | ⟨-, rfl⟩⟩ := hleases right hright
      · exact h.distinct left holdLeft right holdRight hsame
      · exact absurd hsame (Bool.eq_false_iff.mp (hfree left holdLeft hleftNumber))
    · obtain ⟨oldRight, holdRight, ⟨hrightNumber, rfl⟩ | ⟨hrightNumber, rfl⟩⟩ :=
        hleases right hright
      · exact absurd (sameName_symm hsame)
          (Bool.eq_false_iff.mp (hfree right holdRight hrightNumber))
      · exact hleftNumber.trans hrightNumber.symm

theorem setHostname (h : NamesInv env configs table) {name : List UInt8} (auth : Bool)
    (hok : LeaseNameOk configs name) (haddr : ∀ l ∈ table.leases, l.number = lease.number →
      l.addr = lease.addr) :
    NamesInv env configs
      (table.setHostname env.byFqdn lease name auth (env.getDomain lease.addr)) := by
  -- the test of `nameHolder` compares names
  have hkey : ∀ l :
    Lease, (if env.byFqdn then sameName l.fqdn (qualify name (env.getDomain lease.addr))
      else sameName l.hostname (some name)) = sameName (l.nameKey env.byFqdn)
        (if env.byFqdn then qualify name (env.getDomain lease.addr) else some name) := by
    intro l
    unfold Lease.nameKey
    split_ifs <;> rfl
  unfold LeaseTable.setHostname
  dsimp only
  split_ifs
  · exact h.update _ fun _ ↦ ⟨rfl, rfl, rfl, rfl⟩
  · exact h
  · cases hholder : table.nameHolder env.byFqdn name (qualify name (env.getDomain lease.addr)) with
    | none =>
      refine h.giveName auth hok haddr fun l hmem _ ↦ ?_
      have hnot := List.find?_eq_none.mp hholder l hmem
      rw [hkey] at hnot
      exact Bool.eq_false_iff.mpr hnot
    | some holder =>
      dsimp only
      split_ifs
      · exact h
      · have hholds := List.find?_some hholder
        rw [hkey] at hholds
        have hmemHolder := List.mem_of_find?_eq_some hholder
        refine (h.killName holder.number).giveName auth hok ?_ ?_
        · intro l hmem hnumber
          obtain ⟨old, hold, rfl⟩ := List.mem_map.mp hmem
          split_ifs at hnumber ⊢ <;> exact haddr old hold hnumber
        · intro l hmem _
          obtain ⟨old, hold, rfl⟩ := List.mem_map.mp hmem
          refine Bool.eq_false_iff.mpr fun hsame ↦ ?_
          by_cases hnumber : old.number = holder.number
          · rw [if_pos hnumber, Lease.nameKey_killName] at hsame
            exact absurd hsame (by simp [sameName_none])
          · rw [if_neg hnumber] at hsame
            exact hnumber
              (h.distinct old hold holder hmemHolder (sameName_trans hsame (sameName_symm hholds)))

theorem finishLease (h : NamesInv env configs table) {call : DhcpCall}
    {clid name : Option (List UInt8)} {auth : Bool} {time override : UInt32}
    (hname : ∀ n, name = some n → LeaseNameOk configs n)
    (haddr : ∀ l ∈ table.leases, l.number = lease.number → l.addr = lease.addr) :
    NamesInv env configs (finishLease env call table lease clid name auth time override) := by
  have hhwaddr : NamesInv env configs (table.update lease.number fun l ↦
      l.setHwaddr call.mess.chaddr call.mess.htype.toNat clid) :=
        h.update _ fun _ ↦ ⟨rfl, rfl, rfl, rfl⟩
  cases name with
  | none => exact hhwaddr.update _ fun _ ↦ ⟨rfl, rfl, rfl, rfl⟩
  | some name =>
    refine NamesInv.update (hhwaddr.setHostname auth (hname name rfl) ?_) _ fun _ ↦
      ⟨rfl, rfl, rfl, rfl⟩
    intro l hmem hnumber
    obtain ⟨old, hold, rfl⟩ := List.mem_map.mp hmem
    split_ifs at hnumber ⊢ <;> exact haddr old hold hnumber

theorem of_sameHosts {after : List HostConfig} (h : NamesInv env configs table)
    (hhosts : SameHosts configs after) :
    NamesInv env after table := by
  refine { h with names := fun lease hmem name hname ↦ (h.names lease hmem name hname).imp_left ?_ }
  rintro ⟨config, hconfig, hhost⟩
  have hmap := List.mem_map_of_mem (f := HostConfig.hostname) hconfig
  rw [← hhosts] at hmap
  obtain ⟨other, hother, heq⟩ := List.mem_map.mp hmap
  exact ⟨other, hother, heq.trans hhost⟩

end NamesInv

/-! ### Every table -/

structure HwaddrOk (lease : Lease) : Prop where
  length_eq : lease.hwaddrLen = lease.hwaddr.length
  length_le : lease.hwaddr.length ≤ dhcpChaddrMax
  type_lt : lease.hwaddrType < 256
  empty : lease.hwaddrType = 0 → lease.hwaddr = []

theorem HwaddrOk.of_nameless {left right : Lease} (h : HwaddrOk left)
    (hsame : left.nameless = right.nameless) :
    HwaddrOk right := by
  have hhwaddr : left.hwaddr = right.hwaddr := Lease.eq_of_nameless (fun _ ↦ rfl) hsame
  have hlength : left.hwaddrLen = right.hwaddrLen := Lease.eq_of_nameless (fun _ ↦ rfl) hsame
  have htype : left.hwaddrType = right.hwaddrType := Lease.eq_of_nameless (fun _ ↦ rfl) hsame
  refine ⟨?_, ?_, ?_, ?_⟩
  · rw [← hlength, ← hhwaddr]
    exact h.length_eq
  · rw [← hhwaddr]
    exact h.length_le
  · rw [← htype]
    exact h.type_lt
  · rw [← htype, ← hhwaddr]
    exact h.empty

theorem HwaddrOk.serve {call : DhcpCall} (hmess : call.mess.rejected = false)
    (clid : Option (List UInt8)) (time override : UInt32) :
    HwaddrOk (lease.serve call clid time override) := by
  have hchecked : ¬(call.mess.bootRequest = false ∨ dhcpChaddrMax < call.mess.chaddr.length ∨
      (call.mess.htype = 0 ∧ call.mess.chaddr ≠ []) ∨
        (call.mess.messType.isSome ∧ call.mess.cookie = false)) :=
    of_decide_eq_false hmess
  obtain ⟨-, hlength, htype, -⟩ := by simpa only [not_or] using hchecked
  refine ⟨rfl, Nat.le_of_not_lt hlength, call.mess.htype.toNat_lt, fun hzero ↦ ?_⟩
  have hhtype : call.mess.htype = 0 := UInt8.toNat_inj.mp hzero
  exact not_not.mp fun hne ↦ htype ⟨hhtype, hne⟩

theorem mem_of_mem_allocate4 {table base : LeaseTable} {addr : UInt32} {lease l : Lease}
    (halloc : table.allocate4 addr = some (base, lease)) (hmem : l ∈ base.leases) :
    l = lease ∨ l ∈ table.leases := by
  unfold LeaseTable.allocate4 at halloc
  split_ifs at halloc
  simp only [Option.some.injEq, Prod.mk.injEq] at halloc
  obtain ⟨rfl, rfl⟩ := halloc
  exact List.mem_cons.mp hmem

theorem count_allocate4 {table base : LeaseTable} {addr : UInt32}
    (halloc : table.allocate4 addr = some (base, lease)) :
    base.leases.length + base.leasesLeft = table.leases.length + table.leasesLeft := by
  unfold LeaseTable.allocate4 at halloc
  split_ifs at halloc with hleft
  simp only [Option.some.injEq, Prod.mk.injEq] at halloc
  obtain ⟨rfl, rfl⟩ := halloc
  dsimp only
  rw [List.length_cons]
  omega

structure LeasesInv (env : DhcpEnv) (dhcpMax : ℕ) (configs : List HostConfig) (table : LeaseTable) :
    Prop extends TableInv table, NamesInv env configs table where
  hwaddrs : ∀ lease ∈ table.leases, HwaddrOk lease
  count : table.leases.length + table.leasesLeft = dhcpMax

namespace LeasesInv

variable {env : DhcpEnv} {dhcpMax : ℕ} {configs : List HostConfig} {table last : LeaseTable}
    {mess : DhcpRequest}

theorem prune (h : LeasesInv env dhcpMax configs table) (target : Option ℕ) (now : ℕ) :
    LeasesInv env dhcpMax configs (table.prune target now) where
  toTableInv := h.toTableInv.prune target now
  toNamesInv := h.toNamesInv.prune target now
  hwaddrs lease hmem := h.hwaddrs lease (List.mem_filter.mp hmem).1
  count := by
    have hlength := List.length_eq_length_filter_add (l := table.leases) (pruned target now)
    have hcount := h.count
    dsimp only [LeaseTable.prune]
    omega

theorem update_override (h : LeasesInv env dhcpMax configs table) (number : ℕ) (override : UInt32) :
    LeasesInv env dhcpMax configs
      (table.update number fun lease ↦ { lease with override := override }) where
  toTableInv := TableInv.setOverride h.toTableInv number override
  toNamesInv := h.toNamesInv.update number fun _ ↦ ⟨rfl, rfl, rfl, rfl⟩
  hwaddrs lease hmem := by
    obtain ⟨old, hold, rfl⟩ := List.mem_map.mp hmem
    have hok := h.hwaddrs old hold
    split_ifs
    · exact { hok with }
    · exact hok
  count := by
    have hcount := h.count
    unfold LeaseTable.update
    rwa [List.length_map]

theorem serve (h : LeasesInv env dhcpMax configs table) {base : LeaseTable} {call : DhcpCall}
    {clid name : Option (List UInt8)} {auth : Bool} {time override : UInt32}
    (hlease : base = table ∧ lease ∈ table.leases ∨
      table.findByAddr lease.addr = none ∧ table.allocate4 lease.addr = some (base, lease))
    (hclid : ∀ c, clid = some c → ClidLike c) (hname : ∀ n, name = some n → LeaseNameOk configs n)
    (hmess : call.mess.rejected = false) :
    LeasesInv env dhcpMax configs
      (finishLease env call base lease clid name auth time override) := by
  -- what is known about the table with the lease in it
  obtain ⟨hmem, htable, hnames, hothers, hcount⟩ : lease ∈ base.leases ∧ TableInv base ∧
    NamesInv env configs base ∧
      (∀ l ∈ base.leases, l.number ≠ lease.number → HwaddrOk l) ∧
        base.leases.length + base.leasesLeft = dhcpMax := by
    rcases hlease with ⟨rfl, hmem⟩ | ⟨hfree, halloc⟩
    · exact ⟨hmem, h.toTableInv, h.toNamesInv, fun l hl _ ↦ h.hwaddrs l hl, h.count⟩
    · refine ⟨mem_of_allocate4 halloc, h.toTableInv.allocate4 hfree halloc,
        h.toNamesInv.allocate4 halloc, ?_, ?_⟩
      · intro l hl hne
        rcases mem_of_mem_allocate4 halloc hl with rfl | hold
        · exact absurd rfl hne
        · exact h.hwaddrs l hold
      · exact (count_allocate4 halloc).trans h.count
  have hrework := @Reworked.finishLease env call base lease clid name auth time override
  refine {
    toTableInv := htable.serve hclid, toNamesInv := hnames.finishLease hname ?_, hwaddrs := ?_,
    count := ?_ }
  · intro l hl hnumber
    rw [List.inj_on_of_nodup_map htable.numbers hl hmem hnumber]
  · intro after hafter
    obtain ⟨l, hl, hsame⟩ := hrework.before hafter
    refine HwaddrOk.of_nameless ?_ hsame
    unfold serveChange
    split_ifs with hnumber
    · exact .serve hmess clid time override
    · exact hothers l hl hnumber
  · have hlength := congrArg List.length hrework.leases
    rw [List.length_map, List.length_map] at hlength
    rw [hlength, finishLease_counts.2]
    exact hcount

theorem change {now : ℕ} {served : Option (UInt32 × Option (List UInt8))}
    (hchange : LeaseChange env configs mess now table last served) (hmess : mess.rejected = false)
    (h : LeasesInv env dhcpMax configs table) : LeasesInv env dhcpMax configs last := by
  induction hchange with
  | same table => exact h
  | prune target _ ih => exact ih (h.prune target now)
  | override table number override => exact h.update_override number override
  | serve call auth time override hcall _ hlease hclid hname =>
    subst hcall
    exact h.serve hlease hclid hname hmess

end LeasesInv

theorem leasesInv_of_reachable {env : DhcpEnv} {dhcpMax : ℕ} {s : DhcpState}
    (hreach : DhcpReachable env dhcpMax s) :
    LeasesInv env dhcpMax s.configs s.table := by
  refine Reachable.invariant (fun s ↦ LeasesInv env dhcpMax s.configs s.table) ?_ ?_ hreach
  · intro s hinitial
    have htable : s.table = .empty dhcpMax := hinitial
    rw [htable]
    exact
      { toTableInv := .empty dhcpMax
        toNamesInv :=
          ⟨by simp [LeaseTable.empty], by simp [LeaseTable.empty], by simp [LeaseTable.empty]⟩
        hwaddrs := by simp [LeaseTable.empty]
        count := by simp [LeaseTable.empty] }
  · intro s event next _ hinv _ hnext
    cases event with
    | packet world arrival mess =>
      obtain ⟨⟨last, answer⟩, hreply, rfl⟩ := Option.map_eq_some_iff.mp hnext
      cases hrejected : mess.rejected with
      | true =>
        unfold dhcpReply at hreply
        rw [if_pos hrejected] at hreply
        rw [← (Prod.mk.inj (Option.some.inj hreply)).1]
        exact hinv
      | false =>
        obtain ⟨⟨served, hchange, -⟩, hhosts⟩ := dhcpReply_change hinv.clids hreply
        have hlast : LeasesInv env dhcpMax s.configs last.table := .change hchange hrejected hinv
        exact { hlast with toNamesInv := hlast.toNamesInv.of_sameHosts hhosts }
    | prune now =>
      obtain rfl := Option.some.inj hnext
      exact hinv.prune none now

/-- No two leases have one name, every name can have come from a client or the configuration, and
leases are neither lost nor made up. -/
theorem leaseNames_of_reachable {env : DhcpEnv} {dhcpMax : ℕ} {s : DhcpState}
    (hreach : DhcpReachable env dhcpMax s) : (∀ left ∈ s.table.leases, ∀ right ∈ s.table.leases,
        sameName (left.nameKey env.byFqdn) (right.nameKey env.byFqdn) = true → left = right) ∧
      (∀ lease ∈ s.table.leases, ∀ name, lease.hostname = some name → LeaseNameOk s.configs name) ∧
        s.table.leases.length + s.table.leasesLeft = dhcpMax := by
  have hinv := leasesInv_of_reachable hreach
  refine ⟨fun left hleft right hright hsame ↦ ?_, hinv.names, hinv.count⟩
  exact List.inj_on_of_nodup_map hinv.numbers hleft hright
    (hinv.distinct left hleft right hright hsame)

/-- A client with an identifier that calls itself `desk`. -/
def deskRequest : DhcpRequest :=
  { homeRequest with
    clientId := some ⟨[1, 2, 0, 0, 0, 0, 7], by decide, by decide⟩
    hostname := some ⟨[100, 101, 115, 107], by decide, by decide⟩ }

/-- Another client, `phone`, that asks for 192.168.0.13. -/
def phoneRequest : DhcpRequest :=
  { homeRequest with
    chaddr := [2, 0, 0, 0, 0, 9]
    requestedIp := some 0xc0a8000d
    hostname := some ⟨[112, 104, 111, 110, 101], by decide, by decide⟩ }

/-- Both clients have got their leases. -/
def homePackets : Option DhcpState :=
  (homeStart.next homeEnv (.packet homeWorld homeArrival deskRequest)).bind fun s ↦
    s.next homeEnv (.packet homeWorld homeArrival phoneRequest)

theorem homePackets_reachable {s : DhcpState} (h : homePackets = some s) :
    DhcpReachable homeEnv 10 s := by
  obtain ⟨first, hfirst, hsecond⟩ := Option.bind_eq_some_iff.mp h
  have hreach : DhcpReachable homeEnv 10 first := homeStart_reachable.step trivial hfirst
  exact hreach.step trivial hsecond

/-- The leases of `phone` and `desk` are two, and no other has the name of one of them. -/
theorem leaseNames_home :
    ∃ s, DhcpReachable homeEnv 10 s ∧
      s.table.leases.map Lease.hostname =
      [some [112, 104, 111, 110, 101], some [100, 101, 115, 107]] ∧
        2 + s.table.leasesLeft = 10 ∧ ∀ left ∈ s.table.leases, ∀ right ∈ s.table.leases,
          sameName (left.nameKey homeEnv.byFqdn) (right.nameKey homeEnv.byFqdn) = true →
          left = right := by
  have hnames : homePackets.map (fun s ↦ s.table.leases.map Lease.hostname) =
      some [some [112, 104, 111, 110, 101], some [100, 101, 115, 107]] := by decide
  obtain ⟨s, hs, hhosts⟩ := Option.map_eq_some_iff.mp hnames
  have hreach := homePackets_reachable hs
  obtain ⟨hdistinct, -, hcount⟩ := leaseNames_of_reachable hreach
  refine ⟨s, hreach, hhosts, ?_, hdistinct⟩
  have hlength : s.table.leases.length = 2 := by simpa using congrArg List.length hhosts
  rw [← hlength]
  exact hcount

end CrossBreeder.Dnsmasq
