import CrossBreeder.Dnsmasq.LeaseFile

/-!
# Leases over a restart

The leases of the file are the leases of the table (`restored_iff`): every table that packets can
leave is restored from what was written for it, if and only if no lease has an empty name or one of
more than 255 characters. A host of the configuration can have an empty name, and the line of its
lease lacks a field (`not_restored_emptyName`).
-/

namespace CrossBreeder.Dnsmasq

open Foundation LeaseTable

/-! ### One lease is stored -/

def Lease.stored (lease : Lease) : Lease :=
  { lease with number := 0, fqdn := none, authName := false, override := 0 }

def Lease.restored (lease : Lease) (number : ℕ) : Lease :=
  { lease with number := number, authName := false, override := 0 }

variable {name : List UInt8}

section Storing

variable {env : DhcpEnv} {table : LeaseTable} {lease : Lease}

theorem update_first {first : Lease} {rest : List Lease} {left allocated number : ℕ}
    (hfirst : first.number = number) (hfresh : ∀ l ∈ rest, l.number ≠ number)
    (change : Lease → Lease) :
    LeaseTable.update ⟨first :: rest, left, allocated⟩ number change =
      ⟨change first :: rest, left, allocated⟩ := by
  have hrest : (rest.map fun l ↦ if l.number = number then change l else l) = rest := by
    refine (List.map_congr_left fun l hl ↦ ?_).trans (List.map_id rest)
    exact if_neg (hfresh l hl)
  unfold LeaseTable.update
  simp only [List.map_cons, hfirst, if_true, hrest]

/-- The first lease of a table gets a name that no other lease has. -/
theorem setHostname_first {first new : Lease} {rest : List Lease} {left allocated : ℕ}
    {byFqdn : Bool} {domain : Option (List UInt8)} (hnumber : new.number = first.number)
    (hfresh : ∀ l ∈ rest, l.number ≠ first.number) (hnew : new.hostname = none)
    (hfirst : first.nameKey byFqdn = none)
    (hnames : ∀ l ∈ rest, sameName (l.nameKey byFqdn) (if byFqdn then qualify name domain
      else some name) = false) :
    setHostname byFqdn ⟨first :: rest, left, allocated⟩ new name false domain =
      ⟨{ first with hostname := some name, fqdn := qualify name domain } :: rest, left,
    allocated⟩ := by
  have hnone : nameHolder ⟨first :: rest, left, allocated⟩ byFqdn name (qualify name domain) =
    none := by
    refine List.find?_eq_none.mpr fun l hl ↦ ?_
    have hkey : (if byFqdn then sameName l.fqdn (qualify name domain)
      else sameName l.hostname (some name)) =
        sameName (l.nameKey byFqdn) (if byFqdn then qualify name domain else some name) := by
      unfold Lease.nameKey
      split_ifs <;> rfl
    rw [hkey]
    rcases List.mem_cons.mp hl with rfl | hl
    · rw [hfirst]
      simp [sameName_none]
    · rw [hnames l hl]
      simp
  unfold setHostname
  rw [hnew]
  dsimp only [sameName]
  rw [if_neg (by simp), hnone]
  dsimp only [giveName]
  rw [hnumber, update_first rfl hfresh]
  simp

theorem storeLease_line (h : LineOk lease)
    (hfqdn : lease.fqdn = lease.hostname.bind fun name ↦ qualify name (env.getDomain lease.addr))
    (hleft : table.leasesLeft ≠ 0) (hfresh : ∀ l ∈ table.leases, l.number < table.allocated)
    (hnames : ∀ l ∈ table.leases,
      sameName (l.nameKey env.byFqdn) (lease.nameKey env.byFqdn) = false) :
    storeLease env table lease.fields =
      some ⟨lease.restored table.allocated :: table.leases, table.leasesLeft - 1,
      table.allocated + 1⟩ := by
  obtain ⟨type, hparse, htype⟩ := parseHex_hwaddrText h.hwaddr
  obtain ⟨new, hnew, halloc⟩ : ∃ new : Lease, new = { lease.restored table.allocated with
      hwaddr := [], hwaddrLen := 256, hwaddrType := 0, clid := none, hostname := none, fqdn := none,
        expires := 1 } ∧
      table.allocate4 lease.addr =
        some (⟨new :: table.leases, table.leasesLeft - 1, table.allocated + 1⟩, new) :=
          ⟨_, rfl, if_neg hleft⟩
  have hnumber : new.number = table.allocated := by rw [hnew]; rfl
  have hne : ∀ l ∈ table.leases, l.number ≠ new.number := fun l hl ↦ hnumber ▸ (hfresh l hl).ne
  -- the lease with the identity of the client, before it gets its name
  have hclient : new.setHwaddr lease.hwaddr lease.hwaddrType lease.clid =
      { lease.restored table.allocated with hostname := none, fqdn := none, expires := 1 } := by
    unfold Lease.setHwaddr
    rw [← h.hwaddr.length_eq, hnew]
    cases hclid : lease.clid with
    | none => simp [Lease.restored, hclid]
    | some c =>
      cases c with
      | nil => exact absurd rfl (h.clid _ hclid).1
      | cons first rest => simp [Lease.restored, hclid]
  unfold storeLease
  dsimp only [Lease.fields]
  rw [halloc, hparse]
  dsimp only [Option.bind_some, Option.map_some]
  rw [h.clidText_spec.2, htype, expiryOf_numeral h.expires, update_first rfl hne, hclient]
  generalize hfirst :
    ({ lease.restored table.allocated with hostname := none, fqdn := none, expires := 1 } : Lease) =
    first
  have hfirstNumber : new.number = first.number := by rw [hnumber, ← hfirst]; rfl
  rw [hfirstNumber] at hne ⊢
  cases hname : lease.hostname with
  | none =>
    rw [hname] at hfqdn
    dsimp only [Option.getD_none]
    rw [restoreName, if_pos rfl, update_first rfl hne, ← hfirst]
    simp [Lease.restored, hname, hfqdn]
  | some name =>
    have hkey : lease.nameKey env.byFqdn =
        if env.byFqdn then qualify name (env.getDomain lease.addr) else some name := by
      unfold Lease.nameKey
      rw [hfqdn, hname]
      rfl
    rw [hkey] at hnames
    rw [hname] at hfqdn
    have hfirstKey : first.nameKey env.byFqdn = none := by
      rw [← hfirst]
      unfold Lease.nameKey
      split_ifs <;> rfl
    dsimp only [Option.getD_some]
    have haddr : new.addr = lease.addr := by rw [hnew]; rfl
    rw [restoreName, if_neg (h.hostname name hname).2, haddr, setHostname_first hfirstNumber hne
      (by rw [hnew]) hfirstKey hnames, update_first (by rfl) hne, ← hfirst]
    simp [Lease.restored, hname, hfqdn]

end Storing

/-! ### All leases are stored -/

theorem scanLease_newline (input : List UInt8) : scanLease (10 :: input) = scanLease input := by
  unfold scanLease
  rw [scanField_cons _ rfl]

/-- The leases of a file are read, in front of those that were there. -/
theorem readLeases_lines {env : DhcpEnv} (leases : List Lease) :
    ∀ (fuel : ℕ) (table : LeaseTable), leases.length ≤ fuel → (∀ l ∈ leases, LineOk l) →
      (∀ l ∈ leases, l.fqdn = l.hostname.bind fun name ↦ qualify name (env.getDomain l.addr)) →
      leases.length ≤ table.leasesLeft → (∀ l ∈ table.leases, l.number < table.allocated) →
      (∀ old ∈ table.leases, ∀ l ∈ leases,
      sameName (old.nameKey env.byFqdn) (l.nameKey env.byFqdn) = false) →
      leases.Pairwise
      (fun left right ↦ sameName (left.nameKey env.byFqdn) (right.nameKey env.byFqdn) = false) →
      ∃ last, readLeases env fuel (leases.map leaseLine).flatten table = some last ∧
        last.leases.map Lease.stored =
        (leases.map Lease.stored).reverse ++ table.leases.map Lease.stored := by
  induction leases with
  | nil =>
    intro fuel table _ _ _ _ _ _ _
    refine ⟨table, ?_, rfl⟩
    cases fuel <;> rfl
  | cons lease leases ih =>
    intro fuel table hfuel hlines hfqdns hleft hfresh hnames hdistinct
    obtain ⟨fuel, rfl⟩ : ∃ n, fuel = n + 1 := ⟨fuel - 1, by simp at hfuel; omega⟩
    rw [List.length_cons] at hfuel hleft
    have hstore :=
      storeLease_line (hlines lease List.mem_cons_self) (hfqdns lease List.mem_cons_self)
      (show table.leasesLeft ≠ 0 by omega) hfresh fun l hl ↦ hnames l hl lease List.mem_cons_self
    have hfreshNext : ∀ l ∈ lease.restored table.allocated :: table.leases,
      l.number < table.allocated + 1 := by
      intro l hl
      rcases List.mem_cons.mp hl with rfl | hl
      · exact Nat.lt_succ_self _
      · exact Nat.lt_succ_of_lt (hfresh l hl)
    have hnamesNext : ∀ old ∈ lease.restored table.allocated :: table.leases, ∀ l ∈ leases,
        sameName (old.nameKey env.byFqdn) (l.nameKey env.byFqdn) = false := by
      intro old hold l hl
      rcases List.mem_cons.mp hold with rfl | hold
      · exact (List.pairwise_cons.mp hdistinct).1 l hl
      · exact hnames old hold l (List.mem_cons_of_mem _ hl)
    obtain ⟨last, hread, hlast⟩ := ih fuel
      ⟨lease.restored table.allocated :: table.leases, table.leasesLeft - 1, table.allocated + 1⟩
        (by omega)
      (fun l hl ↦ hlines l (List.mem_cons_of_mem _ hl)) (fun l hl ↦
        hfqdns l (List.mem_cons_of_mem _ hl))
      (by dsimp only; omega) hfreshNext hnamesNext (List.pairwise_cons.mp hdistinct).2
    refine ⟨last, ?_, ?_⟩
    · rw [List.map_cons, List.flatten_cons, readLeases,
        (hlines lease List.mem_cons_self).scanLease_line]
      dsimp only
      rw [hstore]
      dsimp only [Option.bind_some]
      rw [← hread]
      cases fuel with
      | zero => rfl
      | succ fuel => rw [readLeases, readLeases, scanLease_newline]
    · rw [hlast, List.map_cons, List.map_cons, List.reverse_cons, List.append_assoc]
      rfl

/-! ### Every table -/

theorem length_le_leaseUpdateFile (table : LeaseTable) : table.leases.length ≤
    (leaseUpdateFile table).length := by
  unfold leaseUpdateFile
  induction table.leases with
  | nil => simp
  | cons lease leases ih =>
    rw [List.map_cons, List.flatten_cons, List.length_append, List.length_cons]
    have hline : 1 ≤ (leaseLine lease).length := by simp [leaseLine]; omega
    omega

def Restored (env : DhcpEnv) (dhcpMax now : ℕ) (table : LeaseTable) : Prop :=
  ∃ last, leaseInit env dhcpMax now (leaseUpdateFile table) = some last ∧
    (last.leases.map Lease.stored).Perm (table.leases.map Lease.stored)

/-- A name of the configuration: a legal one as in `/etc/ethers`, or the first part of it as with
`dhcp-host`. -/
def ConfiguredName (name : List UInt8) : Prop :=
  ∃ given legal, legalHostname given = some legal ∧ (name = legal ∨ name = hostPart legal)

theorem leaseName_ne_star {configs : List HostConfig} (hconfigs : ∀ config ∈ configs, ∀ name,
    config.hostname = some name → ConfiguredName name) (hname : LeaseNameOk configs name) :
    name ≠ [42] := by
  have hstar : hostChar 42 = false := rfl
  rintro rfl
  rcases hname with ⟨config, hconfig, hhost⟩ | ⟨hchars, -⟩
  · obtain ⟨given, legal, hlegal, hname⟩ := hconfigs config hconfig _ hhost
    have hchars := all_hostPart_legal hlegal
    rcases hname with rfl | hpart
    · simp [hostPart, hstar] at hchars
    · rw [← hpart] at hchars
      simp [hstar] at hchars
  · simp [hstar] at hchars

def NameFits (name : List UInt8) : Prop := name ≠ [] ∧ name.length ≤ 255

def NamesFit (table : LeaseTable) :
    Prop := ∀ lease ∈ table.leases, ∀ name, lease.hostname = some name → NameFits name

namespace NamesFit

variable {table last : LeaseTable}

theorem update (h : NamesFit table) (number : ℕ) {change : Lease → Lease}
    (hchange : ∀ lease name, (change lease).hostname = some name → lease.hostname = some name ∨
      NameFits name) :
    NamesFit (table.update number change) := by
  intro lease hmem name hname
  obtain ⟨old, hold, rfl⟩ := List.mem_map.mp hmem
  split_ifs at hname
  · exact (hchange old name hname).elim (h old hold name) id
  · exact h old hold name hname

theorem setHostname (h : NamesFit table) (byFqdn : Bool) {lease : Lease} (auth : Bool)
    (domain : Option (List UInt8)) (hname : NameFits name) :
    NamesFit (table.setHostname byFqdn lease name auth domain) := by
  have hgive : ∀ table : LeaseTable, NamesFit table →
      NamesFit (table.giveName lease.number name (qualify name domain) auth) := fun table h ↦
    h.update _ fun _ _ heq ↦ .inr (Option.some.inj heq ▸ hname)
  unfold LeaseTable.setHostname
  dsimp only
  split_ifs
  · exact h.update _ fun _ _ heq ↦ .inl heq
  · exact h
  · split
    · exact hgive table h
    · split_ifs
      · exact h
      · exact hgive _ (h.update _ fun _ _ heq ↦ absurd heq (by simp [Lease.killName]))

theorem storeLease {env : DhcpEnv} (h : NamesFit table) {fields : LeaseFields}
    (hfields : NameFits fields.hostname) (hstore : storeLease env table fields = some last) :
    NamesFit last := by
  obtain ⟨⟨base, new⟩, halloc, hstore⟩ := Option.bind_eq_some_iff.mp hstore
  obtain ⟨⟨hwaddr, type⟩, -, rfl⟩ := Option.map_eq_some_iff.mp hstore
  have hbase : NamesFit base := by
    intro lease hmem name hname
    unfold LeaseTable.allocate4 at halloc
    split_ifs at halloc
    simp only [Option.some.injEq, Prod.mk.injEq] at halloc
    obtain ⟨rfl, rfl⟩ := halloc
    rcases List.mem_cons.mp hmem with rfl | hold
    · exact absurd hname (by simp)
    · exact h lease hold name hname
  have hhwaddr : NamesFit (base.update new.number fun l ↦
      l.setHwaddr hwaddr (hwTypeOf type hwaddr) (clidOf fields.clid)) :=
        hbase.update _ fun _ _ heq ↦ .inl heq
  refine NamesFit.update ?_ _ fun _ _ heq ↦ .inl heq
  unfold restoreName
  split_ifs
  · exact hhwaddr
  · exact hhwaddr.setHostname _ _ _ hfields

theorem readLeases {env : DhcpEnv} (fuel : ℕ) :
    ∀ {input : List UInt8} {table : LeaseTable}, NamesFit table →
    readLeases env fuel input table = some last → NamesFit last := by
  induction fuel with
  | zero => exact fun h hread ↦ Option.some.inj hread ▸ h
  | succ fuel ih =>
    intro input table h hread
    rw [Dnsmasq.readLeases] at hread
    split at hread
    · exact Option.some.inj hread ▸ h
    · next fields rest hscan =>
      obtain ⟨next, hstore, hread⟩ := Option.bind_eq_some_iff.mp hread
      refine ih (h.storeLease ?_ hstore) hread
      unfold scanLease at hscan
      simp only [Option.bind_eq_some_iff, Option.map_eq_some_iff, Prod.exists,
        Prod.mk.injEq] at hscan
      obtain ⟨_, _, -, _, _, -, _, _, -, hostname, _, hname, _, _, -, _, -, rfl, -⟩ := hscan
      exact scanField_spec hname

end NamesFit

/-- A table that packets have left is restored if and only if the names of its leases fit. -/
theorem restored_iff {env : DhcpEnv} {dhcpMax now : ℕ} {s : DhcpState}
    (hreach : DhcpReachable env dhcpMax s)
    (hconfigs : ∀ config ∈ s.configs, ∀ name, config.hostname = some name → ConfiguredName name)
    (hspace : ∀ lease ∈ s.table.leases, ∀ name, lease.hostname = some name →
      ∀ c ∈ name, isSpace c = false)
    (htime : ∀ lease ∈ s.table.leases, lease.expires < 2 ^ 63)
    (hnow : ∀ lease ∈ s.table.leases, lease.expired now = false) :
    Restored env dhcpMax now s.table ↔ NamesFit s.table := by
  have hinv := leasesInv_of_reachable hreach
  constructor
  · rintro ⟨last, hinit, hperm⟩ lease hmem name hname
    obtain ⟨read, hread, rfl⟩ := Option.map_eq_some_iff.mp hinit
    have hfits : NamesFit read := NamesFit.readLeases _ (by simp [NamesFit, LeaseTable.empty]) hread
    obtain ⟨other, hother, hsame⟩ := List.mem_map.mp
      (hperm.mem_iff.mpr (List.mem_map_of_mem (f := Lease.stored) hmem))
    have hhostname : other.stored.hostname = lease.stored.hostname := congrArg Lease.hostname hsame
    exact hfits other (List.mem_filter.mp hother).1 name (hhostname.trans hname)
  · intro hfits
    have hlines : ∀ lease ∈ s.table.leases, LineOk lease := fun lease hmem ↦
      { expires := htime lease hmem
        hwaddr := hinv.hwaddrs lease hmem
        hostname := fun name hname ↦
          ⟨⟨(hfits lease hmem name hname).1, (hfits lease hmem name hname).2,
            hspace lease hmem name hname⟩,
            leaseName_ne_star hconfigs (hinv.names lease hmem name hname)⟩
        clid := hinv.clids lease hmem }
    have hdistinct : s.table.leases.Pairwise fun left right ↦
        sameName (left.nameKey env.byFqdn) (right.nameKey env.byFqdn) = false := by
      refine (List.pairwise_map.mp hinv.numbers).imp_of_mem fun {left right} hleft hright hne ↦ ?_
      exact Bool.eq_false_iff.mpr fun hsame ↦ hne (hinv.distinct left hleft right hright hsame)
    have hfuel := length_le_leaseUpdateFile s.table
    obtain ⟨last, hread, hlast⟩ :=
      readLeases_lines s.table.leases ((leaseUpdateFile s.table).length + 1)
      (.empty dhcpMax)
        (by omega) hlines hinv.fqdns (by have := hinv.count; dsimp only [LeaseTable.empty]; omega)
      (by simp [LeaseTable.empty]) (by simp [LeaseTable.empty]) hdistinct
    rw [show (LeaseTable.empty dhcpMax).leases = [] from rfl, List.map_nil,
      List.append_nil] at hlast
    refine ⟨last.prune none now, ?_, ?_⟩
    · unfold leaseInit
      rw [show readLeases env ((leaseUpdateFile s.table).length + 1) (leaseUpdateFile s.table)
        (.empty dhcpMax) = some last from hread]
      rfl
    · have hkept : (last.prune none now).leases = last.leases := by
        refine List.filter_eq_self.mpr fun l hl ↦ ?_
        have hstored : l.stored ∈ (s.table.leases.map Lease.stored).reverse :=
          hlast ▸ List.mem_map_of_mem hl
        obtain ⟨lease, hmem, hsame⟩ := List.mem_map.mp (List.mem_reverse.mp hstored)
        have hexpires : lease.stored.expires = l.stored.expires := congrArg Lease.expires hsame
        have hexpired : lease.expired now = l.expired now := by
          unfold Lease.expired
          rw [show lease.expires = l.expires from hexpires]
        simp [pruned, ← hexpired, hnow lease hmem]
      rw [hkept, hlast]
      exact List.reverse_perm _

/-- The leases of two clients are restored, one of them from the line
`4600 02:00:00:00:00:07 192.168.0.12 desk 01:02:00:00:00:00:07`. -/
theorem restored_home :
    ∃ s, DhcpReachable homeEnv 10 s ∧
      s.table.leases.map Lease.hostname =
      [some [112, 104, 111, 110, 101], some [100, 101, 115, 107]] ∧
        s.table.leases.map Lease.clid = [none, some [1, 2, 0, 0, 0, 0, 7]] ∧
          Restored homeEnv 10 1000 s.table := by
  have hhosts :
    homePackets.map (fun s ↦ (s.table.leases.map Lease.hostname, s.table.leases.map Lease.clid)) =
      some ([some [112, 104, 111, 110, 101], some [100, 101, 115, 107]],
        [none, some [1, 2, 0, 0, 0, 0, 7]]) := by
    decide
  have htimes : homePackets.map (fun s ↦ (s.configs.length, s.table.leases.map Lease.expires)) =
      some (0, [4600, 4600]) := by decide
  obtain ⟨s, hs, heq⟩ := Option.map_eq_some_iff.mp hhosts
  obtain ⟨hnames, hclids⟩ := Prod.mk.inj heq
  rw [hs] at htimes
  obtain ⟨hconfigs, hexpires⟩ := Prod.mk.inj (Option.some.inj htimes)
  have hreach := homePackets_reachable hs
  have hname : ∀ lease ∈ s.table.leases, ∀ name, lease.hostname = some name →
      name = [112, 104, 111, 110, 101] ∨ name = [100, 101, 115, 107] := by
    intro lease hmem name hsome
    have hlisted : lease.hostname ∈ s.table.leases.map Lease.hostname := List.mem_map_of_mem hmem
    rw [hnames, hsome] at hlisted
    simpa using hlisted
  have hexpire : ∀ lease ∈ s.table.leases, lease.expires = 4600 := by
    intro lease hmem
    have hlisted : lease.expires ∈ s.table.leases.map Lease.expires := List.mem_map_of_mem hmem
    rw [hexpires] at hlisted
    simpa using hlisted
  refine ⟨s, hreach, hnames, hclids, (restored_iff hreach ?_ ?_ ?_ ?_).mpr ?_⟩
  · rw [List.length_eq_zero_iff.mp hconfigs]
    simp
  · intro lease hmem name hsome
    obtain rfl | rfl := hname lease hmem name hsome <;> simp [isSpace]
  · exact fun lease hmem ↦ by simp [hexpire lease hmem]
  · exact fun lease hmem ↦ by simp [Lease.expired, hexpire lease hmem]
  · intro lease hmem name hsome
    obtain rfl | rfl := hname lease hmem name hsome <;> exact ⟨by decide, by decide⟩

/-- `dhcp-host=02:00:00:00:00:07,.lan`: the name is legal, and nothing is left of it without its
domain. -/
def namelessHost : HostConfig :=
  { number := 0, disable := false, noclid := false, clid := none, hostname := some [], addr := none,
    leaseTime := none
    declined := false, declineTime := 0, hwaddr := [⟨[2, 0, 0, 0, 0, 7], 1, 0⟩], netid := [] }

theorem configuredName_nil : ConfiguredName [] :=
  ⟨[46, 108, 97, 110], [46, 108, 97, 110], by decide, .inr (by decide)⟩

/-- The line of a lease with an empty name has only four fields, and the lease is lost. -/
theorem not_restored_emptyName :
    ¬∀ (env : DhcpEnv) (dhcpMax now : ℕ) (s : DhcpState), DhcpReachable env dhcpMax s →
      (∀ config ∈ s.configs, ∀ name, config.hostname = some name → ConfiguredName name) →
      (∀ lease ∈ s.table.leases, ∀ name, lease.hostname = some name →
      ∀ c ∈ name, isSpace c = false) → (∀ lease ∈ s.table.leases, lease.expires < 2 ^ 63) →
      (∀ lease ∈ s.table.leases, lease.expired now = false) → Restored env dhcpMax now s.table := by
  intro hclaim
  have hnext : (({ homeStart with configs := [namelessHost] } : DhcpState).next homeEnv
      (.packet homeWorld homeArrival homeRequest)).map
        (fun s ↦ (s.configs.map HostConfig.hostname, s.table.leases.map Lease.hostname,
          s.table.leases.map Lease.expires,
          (leaseInit homeEnv 10 1000 (leaseUpdateFile s.table)).map fun last ↦
            last.leases.length)) =
      some ([some []], [some []], [4600], some 0) := by decide
  obtain ⟨s, hnext, heq⟩ := Option.map_eq_some_iff.mp hnext
  simp only [Prod.mk.injEq] at heq
  obtain ⟨hconfigs, hnames, hexpires, hinit⟩ := heq
  have hreach : DhcpReachable homeEnv 10 s := (Reachable.start rfl).step trivial hnext
  have hname : ∀ lease ∈ s.table.leases, lease.hostname = some [] := fun lease hmem ↦
    List.mem_singleton.mp (hnames ▸ List.mem_map_of_mem (f := Lease.hostname) hmem)
  have hexpire : ∀ lease ∈ s.table.leases, lease.expires = 4600 := fun lease hmem ↦
    List.mem_singleton.mp (hexpires ▸ List.mem_map_of_mem (f := Lease.expires) hmem)
  obtain ⟨last, hlast, hperm⟩ := hclaim homeEnv 10 1000 s hreach
    (by
      intro config hmem name hsome
      have hin := List.mem_map_of_mem (f := HostConfig.hostname) hmem
      rw [hconfigs, hsome] at hin
      obtain rfl : name = [] := Option.some.inj (List.mem_singleton.mp hin)
      exact configuredName_nil)
    (by
      intro lease hmem name hsome
      obtain rfl : name = [] := Option.some.inj (hsome.symm.trans (hname lease hmem))
      simp)
    (fun lease hmem ↦ by simp [hexpire lease hmem])
    (fun lease hmem ↦ by simp [Lease.expired, hexpire lease hmem])
  have hlength := hperm.length_eq
  rw [hlast] at hinit
  have hnone : last.leases.length = 0 := Option.some.inj hinit
  have hone : s.table.leases.length = 1 := by simpa using congrArg List.length hnames
  simp only [List.length_map] at hlength
  omega

end CrossBreeder.Dnsmasq
