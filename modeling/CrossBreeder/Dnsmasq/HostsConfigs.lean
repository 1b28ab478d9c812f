import CrossBreeder.Foundation.InPlace
import CrossBreeder.Dnsmasq.Enumeration
import CrossBreeder.Dnsmasq.Forwarding

/-!
# Static addresses from hosts files

`dhcp_update_configs` gives the hosts of the DHCP configuration that have a name and no address the
one that the name has in a hosts file, for both families, and starts by taking away what it gave
before. That it gave an address is one flag for both families, so a host with an explicit address of
one family that gets one of the other loses the explicit one the next time. `maintained_iff` says
that this is all: if no host is in this position, each address stays with one host, explicit ones
stay where they are, and another run with the same data changes nothing.
-/

namespace CrossBreeder.Dnsmasq

open Foundation

/-! ### What the code does -/

/-- `struct dhcp_config` with the fields that `dhcp_update_configs` reads and writes. -/
structure DhcpConfig where
  hostname : Option (List UInt8)
  addr : Option (List UInt8)
  addr6 : Option (List UInt8)
  addrHosts : Bool
  deriving DecidableEq, Repr

def Family.cacheflags : Family → Flags
  | .inet => {.ipv4}
  | .inet6 => {.ipv6}

def Family.bytes : Family → ℕ
  | .inet => 4
  | .inet6 => 16

def Family.other : Family → Family
  | .inet => .inet6
  | .inet6 => .inet

namespace DhcpConfig

def address (config : DhcpConfig) : Family → Option (List UInt8)
  | .inet => config.addr
  | .inet6 => config.addr6

/-- The address is set, with `CONFIG_ADDR_HOSTS`. -/
def fromHosts (config : DhcpConfig) (addr : List UInt8) : Family → DhcpConfig
  | .inet => { config with addr := some addr, addrHosts := true }
  | .inet6 => { config with addr6 := some addr, addrHosts := true }

/-- The addresses are taken away from a host that got one. -/
def restore (config : DhcpConfig) : DhcpConfig :=
  if config.addrHosts then { config with addr := none, addr6 := none, addrHosts := false }
    else config

@[simp] theorem addrHosts_fromHosts (config : DhcpConfig) (addr : List UInt8) (family : Family) :
    (config.fromHosts addr family).addrHosts = true := by
  cases family <;> rfl

end DhcpConfig

/-- The loop for the first answer with `F_REVERSE`. -/
def primaryAnswer (env : Env) (s : Cache) (name : List UInt8) (prot : Flags) :
    ℕ → Addr → Option Addr
  | 0, _ => none
  | fuel + 1, crec =>
    if .reverse ∈ s.flags crec then some crec
    else (cacheFindByName env s (some crec) name 0 prot).2.bind (primaryAnswer env s name prot fuel)

/-- The address of a name, if the first answer is from a hosts file: that of the only answer, or of
the primary one. -/
def hostsAddress (env : Env) (s : Cache) (name : List UInt8) (family : Family) :
    Cache × Option (List UInt8) :=
  let (s, found) := cacheFindByName env s none name 0 family.cacheflags
  (s, found.bind fun crec ↦
    if .hosts ∉ s.flags crec then none
    else
      let primary := match (cacheFindByName env s (some crec) name 0 family.cacheflags).2 with
        | none => some crec
        | some _ => primaryAnswer env s name family.cacheflags s.walkFuel crec
      primary.map fun crec ↦ (s.crec crec).addr.take family.bytes)

/-- The address that a host without one is offered. -/
def hostsOffer (env : Env) (family : Family) (s : Cache) (config : DhcpConfig) :
    Cache × Option (List UInt8) :=
  if config.address family = none then
    match config.hostname with
    | none => (s, none)
    | some hostname => hostsAddress env s hostname family
  else (s, none)

/-- `config_find_by_address`, and `config_find_by_address6` with a prefix of 128. -/
def findByAddress (family : Family) (configs : List DhcpConfig) (addr : List UInt8) :
    Option DhcpConfig :=
  configs.find? fun config ↦ config.address family = some addr

/-- One host. It is not found itself, as it has no address. -/
def updateConfig (env : Env) (family : Family) (s : Cache) (done : List DhcpConfig)
    (config : DhcpConfig) (rest : List DhcpConfig) : Cache × DhcpConfig :=
  match hostsOffer env family s config with
  | (s, none) => (s, config)
  | (s, some addr) =>
    match findByAddress family (done ++ config :: rest) addr with
    | none => (s, config.fromHosts addr family)
    | some _ => (s, config)

/-- `dhcp_update_configs`. Without a port there is no cache. -/
def dhcpUpdateConfigs (env : Env) (port : ℕ) (s : Cache) (configs : List DhcpConfig) :
    Cache × List DhcpConfig :=
  let configs := configs.map DhcpConfig.restore
  if port = 0 then (s, configs)
  else
    let (s, configs) := visitEach (updateConfig env .inet) s [] configs
    visitEach (updateConfig env .inet6) s [] configs

/-! ### Who is offered what -/

/-- What the hosts of a list are offered, one after the other, with the cache after that. -/
def hostsOffers (env : Env) (family : Family) :
    Cache → List DhcpConfig → Cache × List (Option (List UInt8))
  | s, [] => (s, [])
  | s, config :: rest =>
    let (s, offer) := hostsOffer env family s config
    let (s, offers) := hostsOffers env family s rest
    (s, offer :: offers)

def HasAddress (family : Family) (configs : List DhcpConfig) (addr : List UInt8) : Prop :=
  ∃ config ∈ configs, config.address family = some addr

instance (family : Family) (configs : List DhcpConfig) (addr : List UInt8) :
    Decidable (HasAddress family configs addr) :=
  inferInstanceAs (Decidable (∃ config ∈ configs, config.address family = some addr))

/-- The address that a host gets: the one it is offered, unless it is an explicit one, or another
host was offered it before. -/
def granted (env : Env) (family : Family) (s : Cache) (front : List DhcpConfig)
    (config : DhcpConfig) (back : List DhcpConfig) : Option (List UInt8) :=
  (hostsOffer env family (hostsOffers env family s front).1 config).2.filter fun addr ↦
    ¬ (HasAddress family (front ++ config :: back) addr ∨
      some addr ∈ (hostsOffers env family s front).2)

def DhcpConfig.give (config : DhcpConfig) (family : Family) (addr : Option (List UInt8)) :
    DhcpConfig :=
  addr.elim config (config.fromHosts · family)

/-- What the hosts behind some others get. -/
def grants (env : Env) (family : Family) (s : Cache) :
    List DhcpConfig → List DhcpConfig → List (Option (List UInt8))
  | _, [] => []
  | front, config :: rest => granted env family s front config rest :: grants env family s
    (front ++ [config]) rest

def startCache (env : Env) (s : Cache) (configs : List DhcpConfig) : Family → Cache
  | .inet => s
  | .inet6 => (hostsOffers env .inet s configs).1

/-! ### The loop of a family -/

variable {env : Env} {family : Family} {s : Cache} {configs front back done rest : List DhcpConfig}
    {config : DhcpConfig}

namespace DhcpConfig

@[simp] theorem address_fromHosts (config : DhcpConfig) (addr : List UInt8) (family : Family) :
    (config.fromHosts addr family).address family = some addr := by
  cases family <;> rfl

@[simp] theorem address_fromHosts_other (config : DhcpConfig) (addr : List UInt8)
    (family : Family) :
    (config.fromHosts addr family).address family.other = config.address family.other := by
  cases family <;> rfl

@[simp] theorem hostname_fromHosts (config : DhcpConfig) (addr : List UInt8) (family : Family) :
    (config.fromHosts addr family).hostname = config.hostname := by
  cases family <;> rfl

end DhcpConfig

theorem hostsOffers_append (front back : List DhcpConfig) : ∀ s : Cache,
    hostsOffers env family s (front ++ back) =
      ((hostsOffers env family (hostsOffers env family s front).1 back).1,
        (hostsOffers env family s front).2 ++
        (hostsOffers env family (hostsOffers env family s front).1 back).2) := by
  induction front with
  | nil => exact fun _ ↦ rfl
  | cons config front ih =>
    intro s
    simp only [List.cons_append, hostsOffers, ih]

theorem address_of_hostsOffer {addr : List UInt8}
    (hoffer : (hostsOffer env family s config).2 = some addr) : config.address family = none := by
  by_contra hsome
  unfold hostsOffer at hoffer
  rw [if_neg hsome] at hoffer
  exact absurd hoffer (by simp)

theorem hasAddress_append (first second : List DhcpConfig) (addr : List UInt8) :
    HasAddress family (first ++ second) addr ↔ HasAddress family first addr ∨
      HasAddress family second addr := by
  simp only [HasAddress, List.mem_append, or_and_right, exists_or]

theorem hasAddress_cons (config : DhcpConfig) (rest : List DhcpConfig) (addr : List UInt8) :
    HasAddress family (config :: rest) addr ↔ config.address family = some addr ∨
      HasAddress family rest addr := by
  simp only [HasAddress, List.mem_cons, or_and_right, exists_or, exists_eq_left]

theorem updateConfig_eq (s : Cache) (done : List DhcpConfig) (config : DhcpConfig)
    (rest : List DhcpConfig) : updateConfig env family s done config rest =
      ((hostsOffer env family s config).1,
        config.give family
          ((hostsOffer env family s config).2.filter fun addr ↦
          ¬ HasAddress family (done ++ config :: rest) addr)) := by
  unfold updateConfig DhcpConfig.give
  split
  · rename_i s' hoffer
    rw [hoffer]
    rfl
  · rename_i s' addr hoffer
    rw [hoffer]
    split
    · rename_i hfind
      have hfree : ¬ HasAddress family (done ++ config :: rest) addr := by
        rintro ⟨other, hother, haddress⟩
        simpa [haddress] using List.find?_eq_none.mp hfind other hother
      simp only [Option.filter, hfree, not_false_iff, decide_true, if_true, Option.elim]
    · rename_i other hfind
      have htaken : HasAddress family (done ++ config :: rest) addr :=
        ⟨other, List.mem_of_find?_eq_some hfind, by simpa using List.find?_some hfind⟩
      simp only [Option.filter, htaken, not_true, decide_false, Bool.false_eq_true,
        if_false, Option.elim]

/-- The host has the address after a visit if it had it before, or is offered it and no host has it.
-/
theorem address_updateConfig (s : Cache) (done : List DhcpConfig) (config : DhcpConfig)
    (rest : List DhcpConfig) (addr : List UInt8) :
    (updateConfig env family s done config rest).2.address family = some addr ↔
      config.address family = some addr ∨
        (hostsOffer env family s config).2 = some addr ∧ ¬ HasAddress family
        (done ++ config :: rest) addr := by
  rw [updateConfig_eq, DhcpConfig.give]
  cases hoffer : (hostsOffer env family s config).2 with
  | none => simp
  | some offered =>
    have hnone := address_of_hostsOffer hoffer
    by_cases htaken : HasAddress family (done ++ config :: rest) offered
    · have hother : offered = addr → HasAddress family (done ++ config :: rest) addr :=
        fun hsame ↦ hsame ▸ htaken
      simpa [Option.filter, htaken, hnone] using hother
    · have hsame : offered = addr → ¬ HasAddress family (done ++ config :: rest) addr :=
        fun hsame ↦ hsame ▸ htaken
      simpa [Option.filter, htaken, hnone] using hsame

structure Updated (env : Env) (family : Family) (start : Cache) (front : List DhcpConfig)
    (s : Cache) (done rest : List DhcpConfig) : Prop where
  cache : s = (hostsOffers env family start front).1
  length : done.length = front.length
  taken : ∀ addr, HasAddress family (done ++ rest) addr ↔
    HasAddress family (front ++ rest) addr ∨ some addr ∈ (hostsOffers env family start front).2

namespace Updated

variable {start : Cache}

/-- What is free in the list as it stands is free in the configuration and was not offered before.
-/
theorem visit (h : Updated env family start front s done (config :: rest)) :
    (updateConfig env family s done config rest).2 = config.give family
      (granted env family start front config rest) := by
  rw [updateConfig_eq, granted, ← h.cache]
  simp only [h.taken]

theorem step (h : Updated env family start front s done (config :: rest)) :
    Updated env family start (front ++ [config]) (updateConfig env family s done config rest).1
      (done ++ [(updateConfig env family s done config rest).2]) rest := by
  have hoffers : hostsOffers env family start (front ++ [config]) =
      ((hostsOffer env family s config).1,
        (hostsOffers env family start front).2 ++ [(hostsOffer env family s config).2]) := by
    rw [hostsOffers_append, ← h.cache]
    rfl
  refine ⟨?_, by simp [h.length], fun addr ↦ ?_⟩
  · rw [hoffers, updateConfig_eq]
  · have hold := h.taken addr
    have hnil : ¬ HasAddress family [] addr := by simp [HasAddress]
    rw [hoffers, hasAddress_append, hasAddress_append, hasAddress_cons, address_updateConfig,
      hasAddress_append,
      hasAddress_append, hasAddress_cons, List.mem_append, List.mem_singleton,
        eq_comm (a := some addr)]
    rw [hasAddress_append, hasAddress_cons, hasAddress_append, hasAddress_cons] at hold
    rw [hasAddress_append, hasAddress_cons]
    grind

theorem run (rest : List DhcpConfig) :
    ∀ {front done : List DhcpConfig} {s : Cache}, Updated env family start front s done rest →
    visitEach (updateConfig env family) s done rest =
      ((hostsOffers env family start (front ++ rest)).1,
        done ++ List.zipWith (DhcpConfig.give · family) rest
        (grants env family start front rest)) := by
  induction rest with
  | nil =>
    intro front done s h
    simp [h.cache]
  | cons config rest ih =>
    intro front done s h
    rw [visitEach_cons, ih h.step, h.visit]
    simp [grants]

end Updated

theorem visitEach_updateConfig (family : Family) (s : Cache) (configs : List DhcpConfig) :
    visitEach (updateConfig env family) s [] configs =
      ((hostsOffers env family s configs).1,
        List.zipWith (DhcpConfig.give · family) configs (grants env family s [] configs)) := by
  have hstart : Updated env family s [] s [] configs := ⟨rfl, rfl, by simp [hostsOffers]⟩
  exact hstart.run configs

/-! ### Both loops -/

/-- What a loop reads of a host. -/
def DhcpConfig.view (family : Family) (config : DhcpConfig) :
    Option (List UInt8) × Option (List UInt8) :=
  (config.hostname, config.address family)

theorem hostsOffer_congr {config config' : DhcpConfig}
    (hview : config.view family = config'.view family) (s : Cache) :
    hostsOffer env family s config = hostsOffer env family s config' := by
  obtain ⟨hname, haddress⟩ := Prod.mk.inj hview
  unfold hostsOffer
  rw [hname, haddress]

theorem hostsOffers_congr (configs : List DhcpConfig) : ∀ {configs' : List DhcpConfig} (s : Cache),
    configs.map (DhcpConfig.view family) = configs'.map (DhcpConfig.view family) →
      hostsOffers env family s configs = hostsOffers env family s configs' := by
  induction configs with
  | nil =>
    intro configs' s hviews
    rw [List.map_eq_nil_iff.mp hviews.symm]
  | cons config configs ih =>
    intro configs' s hviews
    obtain ⟨config', rest, rfl, hview, hrest⟩ := List.map_eq_cons_iff.mp hviews.symm
    simp only [hostsOffers, hostsOffer_congr hview.symm, ih _ hrest.symm]

theorem hasAddress_congr {configs' : List DhcpConfig}
    (hviews : configs.map (DhcpConfig.view family) = configs'.map (DhcpConfig.view family))
    (addr : List UInt8) : HasAddress family configs addr ↔ HasAddress family configs' addr := by
  have hmem : ∀ list : List DhcpConfig,
      HasAddress family list addr ↔ ∃ pair ∈ list.map (DhcpConfig.view family),
        pair.2 = some addr := by
    intro list
    simp [HasAddress, DhcpConfig.view]
  rw [hmem, hmem, hviews]

theorem granted_congr {front' back' : List DhcpConfig} {config' : DhcpConfig} (s : Cache)
    (hfront : front.map (DhcpConfig.view family) = front'.map (DhcpConfig.view family))
    (hconfig : config.view family = config'.view family)
    (hback : back.map (DhcpConfig.view family) = back'.map (DhcpConfig.view family)) :
    granted env family s front config back = granted env family s front' config' back' := by
  have hall : (front ++ config :: back).map (DhcpConfig.view family) =
      (front' ++ config' :: back').map (DhcpConfig.view family) := by
    simp [hfront, hconfig, hback]
  unfold granted
  simp only [hostsOffers_congr front s hfront, hostsOffer_congr hconfig, hasAddress_congr hall]

theorem grants_congr (env : Env) (family : Family) (rest : List DhcpConfig) :
    ∀ {front front' rest' : List DhcpConfig} (s : Cache),
    front.map (DhcpConfig.view family) = front'.map (DhcpConfig.view family) →
    rest.map (DhcpConfig.view family) = rest'.map (DhcpConfig.view family) →
      grants env family s front rest = grants env family s front' rest' := by
  induction rest with
  | nil =>
    intro front front' rest' s _ hrest
    rw [List.map_eq_nil_iff.mp hrest.symm]
    rfl
  | cons config rest ih =>
    intro front front' rest' s hfront hrest
    obtain ⟨config', rest'', rfl, hview, hbehind⟩ := List.map_eq_cons_iff.mp hrest.symm
    have hlonger : (front ++ [config]).map (DhcpConfig.view family) =
      (front' ++ [config']).map (DhcpConfig.view family) := by
      simp [hfront, hview]
    rw [grants, grants, granted_congr s hfront hview.symm hbehind.symm, ih s hlonger hbehind.symm]

@[simp] theorem length_grants (rest : List DhcpConfig) : ∀ front : List DhcpConfig,
    (grants env family s front rest).length = rest.length := by
  induction rest with
  | nil => exact fun _ ↦ rfl
  | cons config rest ih => exact fun front ↦ congrArg (· + 1) (ih _)

theorem grants_append (env : Env) (family : Family) (s : Cache) (front : List DhcpConfig)
    (config : DhcpConfig) (back : List DhcpConfig) : ∀ before : List DhcpConfig,
    (grants env family s before (front ++ config :: back))[front.length]? =
      some (granted env family s (before ++ front) config back) := by
  induction front with
  | nil =>
    intro before
    simp [grants]
  | cons other front ih =>
    intro before
    have hlater := ih (before ++ [other])
    simpa [grants] using hlater

theorem view_give (config : DhcpConfig) (family : Family) (addr : Option (List UInt8)) :
    (config.give family addr).view family.other = config.view family.other := by
  cases addr with
  | none => rfl
  | some addr =>
    exact Prod.ext (DhcpConfig.hostname_fromHosts _ _ _) (DhcpConfig.address_fromHosts_other _ _ _)

theorem views_zipWith (family : Family) (configs : List DhcpConfig) : ∀ addrs :
    List (Option (List UInt8)), addrs.length = configs.length →
    (List.zipWith (DhcpConfig.give · family) configs addrs).map (DhcpConfig.view family.other) =
      configs.map (DhcpConfig.view family.other) := by
  induction configs with
  | nil => exact fun _ _ ↦ rfl
  | cons config configs ih =>
    intro addrs hlength
    cases addrs with
    | nil => cases hlength
    | cons addr addrs =>
      rw [List.zipWith_cons_cons, List.map_cons, List.map_cons, view_give,
        ih addrs (Nat.succ.inj hlength)]

variable {port : ℕ}

/-- A run that is not without a port, host by host. -/
theorem dhcpUpdateConfigs_eq (hport : port ≠ 0) (s : Cache) (configs : List DhcpConfig) :
    (dhcpUpdateConfigs env port s configs).2 =
      List.zipWith (DhcpConfig.give · .inet6)
        (List.zipWith (DhcpConfig.give · .inet) (configs.map DhcpConfig.restore)
          (grants env .inet s [] (configs.map DhcpConfig.restore)))
        (grants env .inet6 (startCache env s (configs.map DhcpConfig.restore) .inet6) []
          (configs.map DhcpConfig.restore)) := by
  have hviews := views_zipWith .inet (configs.map DhcpConfig.restore)
    (grants env .inet s [] (configs.map DhcpConfig.restore)) (length_grants _ _)
  have hgrants :=
    grants_congr env .inet6 _ (startCache env s (configs.map DhcpConfig.restore) .inet6)
    (rfl : [].map (DhcpConfig.view .inet6) = _) hviews
  unfold dhcpUpdateConfigs
  dsimp only
  rw [if_neg hport, visitEach_updateConfig, visitEach_updateConfig]
  exact congrArg (List.zipWith (DhcpConfig.give · .inet6) _) hgrants

theorem getElem?_dhcpUpdateConfigs (hport : port ≠ 0) (s : Cache)
    (hsplit : configs.map DhcpConfig.restore = front ++ config :: back) :
    (dhcpUpdateConfigs env port s configs).2[front.length]? =
      some ((config.give .inet (granted env .inet s front config back)).give .inet6
        (granted env .inet6 (startCache env s (front ++ config :: back) .inet6) front
        config back)) := by
  rw [dhcpUpdateConfigs_eq hport, hsplit]
  have hinet := grants_append env .inet s front config back []
  have hinet6 := grants_append env .inet6 (startCache env s (front ++ config :: back) .inet6) front
    config back []
  rw [List.getElem?_zipWith, List.getElem?_zipWith, hinet, hinet6]
  simp

theorem length_dhcpUpdateConfigs (port : ℕ) (s : Cache) (configs : List DhcpConfig) :
    (dhcpUpdateConfigs env port s configs).2.length = configs.length := by
  by_cases hport : port = 0
  · unfold dhcpUpdateConfigs
    simp [hport]
  · simp [dhcpUpdateConfigs_eq hport]

/-! ### What a run keeps -/

/-- A configuration as it is read: nothing is from a hosts file, and the explicit addresses are
different. -/
structure Configuration where
  configs : List DhcpConfig
  fresh : ∀ config ∈ configs, config.addrHosts = false
  distinct : ∀ family : Family, (configs.filterMap (DhcpConfig.address · family)).Nodup

structure KeepsAddresses (configs result : List DhcpConfig) : Prop where
  unique : ∀ family : Family, (result.filterMap (DhcpConfig.address · family)).Nodup
  explicit : ∀ (i : ℕ) (family : Family) (addr : List UInt8),
    configs[i]?.bind (DhcpConfig.address · family) = some addr →
      result[i]?.bind (DhcpConfig.address · family) = some addr

def hostsAnswers (env : Env) : Cache → List (List UInt8 × Family) → List (Option (List UInt8))
  | _, [] => []
  | s, (name, family) :: questions =>
    let (s, answer) := hostsAddress env s name family
    answer :: hostsAnswers env s questions

def SameHostsData (env : Env) (s s' : Cache) :
    Prop := ∀ questions, hostsAnswers env s questions = hostsAnswers env s' questions

/-- A run keeps addresses, so does another run on what it leaves, whatever the hosts files say then,
and with the same data the second run changes nothing. -/
structure Maintained (env : Env) (port : ℕ) (s : Cache) (configs : List DhcpConfig) : Prop where
  first : KeepsAddresses configs (dhcpUpdateConfigs env port s configs).2
  later : ∀ s', KeepsAddresses configs
    (dhcpUpdateConfigs env port s' (dhcpUpdateConfigs env port s configs).2).2
  again : ∀ s', SameHostsData env s s' →
    (dhcpUpdateConfigs env port s' (dhcpUpdateConfigs env port s configs).2).2 =
      (dhcpUpdateConfigs env port s configs).2

/-- A host with an explicit address of one family gets one of the other family. -/
def Crossed (env : Env) (s : Cache) (configs : List DhcpConfig) : Prop :=
  ∃ (family : Family) (front : List DhcpConfig) (config : DhcpConfig) (back : List DhcpConfig),
    configs = front ++ config :: back ∧ config.address family.other ≠ none ∧
      granted env family (startCache env s configs family) front config back ≠ none

/-! ### Each address once -/

theorem nodup_visitEach (s : Cache)
    (hdistinct : (configs.filterMap (DhcpConfig.address · family)).Nodup) :
    ((visitEach (updateConfig env family) s [] configs).2.filterMap
      (DhcpConfig.address · family)).Nodup := by
  have hvisit : ∀ s done config rest,
    ((done ++ config :: rest).filterMap (DhcpConfig.address · family)).Nodup →
      ((done ++ [(updateConfig env family s done config rest).2] ++ rest).filterMap
        (DhcpConfig.address · family)).Nodup := by
    intro s done config rest hnodup
    rw [updateConfig_eq, List.append_assoc, List.singleton_append]
    cases hgiven : (hostsOffer env family s config).2.filter
        fun addr ↦ ¬ HasAddress family (done ++ config :: rest) addr with
    | none => exact hnodup
    | some addr =>
      obtain ⟨hoffer, hfree⟩ := Option.filter_eq_some_iff.mp hgiven
      have hnone := address_of_hostsOffer hoffer
      have hfree : ¬ HasAddress family (done ++ config :: rest) addr := by simpa using hfree
      have haddress : (config.give family (some addr)).address family = some addr :=
        DhcpConfig.address_fromHosts _ _ _
      simp only [List.filterMap_append, List.filterMap_cons, hnone] at hnodup
      simp only [List.filterMap_append, List.filterMap_cons, haddress]
      rw [List.nodup_middle, List.nodup_cons]
      refine ⟨fun hmem ↦ hfree ?_, hnodup⟩
      rw [← List.filterMap_append] at hmem
      obtain ⟨other, hother, hsame⟩ := List.mem_filterMap.mp hmem
      refine ⟨other, ?_, hsame⟩
      simp only [List.mem_append, List.mem_cons] at hother ⊢
      grind
  have hend := visitEach_invariant (fun _ done rest ↦
    ((done ++ rest).filterMap (DhcpConfig.address · family)).Nodup)
    hvisit configs (s := s) (show (([] ++ configs).filterMap (DhcpConfig.address · family)).Nodup
      from hdistinct)
  simpa using hend

theorem filterMap_view (configs : List DhcpConfig) (family : Family) :
    configs.filterMap (DhcpConfig.address · family) =
      (configs.map (DhcpConfig.view family)).filterMap Prod.snd := by
  rw [List.filterMap_map]
  rfl

theorem filterMap_visitEach_other (env : Env) (s : Cache) (configs : List DhcpConfig)
    (family : Family) :
    (visitEach (updateConfig env family) s [] configs).2.filterMap
      (DhcpConfig.address · family.other) =
      configs.filterMap (DhcpConfig.address · family.other) := by
  rw [visitEach_updateConfig, filterMap_view, filterMap_view,
    views_zipWith _ _ _ (length_grants _ _)]

theorem nodup_dhcpUpdateConfigs (port : ℕ) (s : Cache)
    (hdistinct : ∀ family :
    Family, ((configs.map DhcpConfig.restore).filterMap (DhcpConfig.address · family)).Nodup)
    (family : Family) :
    ((dhcpUpdateConfigs env port s configs).2.filterMap (DhcpConfig.address · family)).Nodup := by
  unfold dhcpUpdateConfigs
  split_ifs
  · exact hdistinct family
  · cases family with
    | inet =>
      have hother := filterMap_visitEach_other env
        (visitEach (updateConfig env .inet) s [] (configs.map DhcpConfig.restore)).1
        (visitEach (updateConfig env .inet) s [] (configs.map DhcpConfig.restore)).2 .inet6
      rw [Family.other] at hother
      rw [hother]
      exact nodup_visitEach s (hdistinct .inet)
    | inet6 =>
      refine nodup_visitEach _ ?_
      have hother := filterMap_visitEach_other env s (configs.map DhcpConfig.restore) .inet
      rw [Family.other] at hother
      rw [hother]
      exact hdistinct .inet6

/-! ### Explicit addresses -/

theorem address_of_granted (hgranted : granted env family s front config back ≠ none) :
    config.address family = none := by
  obtain ⟨addr, hsome⟩ := Option.ne_none_iff_exists'.mp hgranted
  exact address_of_hostsOffer (Option.filter_eq_some_iff.mp hsome).1

theorem address_give_other (config : DhcpConfig) (family : Family) (addr : Option (List UInt8)) :
    (config.give family addr).address family.other = config.address family.other :=
  congrArg Prod.snd (view_give config family addr)

theorem exists_split {i : ℕ} (hget : configs[i]? = some config) :
    ∃ front back, configs = front ++ config :: back ∧ front.length = i := by
  obtain ⟨hlt, rfl⟩ := List.getElem?_eq_some_iff.mp hget
  exact ⟨configs.take i, configs.drop (i + 1), by simp, by simp [hlt.le]⟩

theorem explicit_dhcpUpdateConfigs (port : ℕ) (s : Cache) (i : ℕ) (family : Family)
    (addr : List UInt8) (hexplicit :
    (configs.map DhcpConfig.restore)[i]?.bind (DhcpConfig.address · family) = some addr) :
    (dhcpUpdateConfigs env port s configs).2[i]?.bind (DhcpConfig.address · family) =
      some addr := by
  by_cases hport : port = 0
  · have hresult : (dhcpUpdateConfigs env port s configs).2 = configs.map DhcpConfig.restore := by
      unfold dhcpUpdateConfigs
      rw [if_pos hport]
    rwa [hresult]
  · obtain ⟨config, hget, haddress⟩ := Option.bind_eq_some_iff.mp hexplicit
    obtain ⟨front, back, hsplit, rfl⟩ := exists_split hget
    rw [getElem?_dhcpUpdateConfigs hport s hsplit, Option.bind_some]
    have hnone : ∀ start, granted env family start front config back = none := by
      intro start
      by_contra hsome
      exact absurd (haddress.symm.trans (address_of_granted hsome)) (by simp)
    cases family with
    | inet =>
      rw [hnone s]
      exact (address_give_other config .inet6 _).trans haddress
    | inet6 =>
      rw [hnone]
      exact (address_give_other config .inet _).trans haddress

variable {k : Configuration}

theorem keepsAddresses_of_restored (hrestored : configs.map DhcpConfig.restore = k.configs)
    (port : ℕ) (s : Cache) : KeepsAddresses k.configs (dhcpUpdateConfigs env port s configs).2 :=
  ⟨nodup_dhcpUpdateConfigs port s (hrestored ▸ k.distinct), fun i family addr hexplicit ↦
    explicit_dhcpUpdateConfigs port s i family addr (hrestored ▸ hexplicit)⟩

/-! ### What is taken away again -/

theorem restore_give {inet inet6 : Option (List UInt8)} (hfresh : config.addrHosts = false)
    (hgiven : inet ≠ none ∨ inet6 ≠ none → config.addr = none ∧ config.addr6 = none) :
    ((config.give .inet inet).give .inet6 inet6).restore = config := by
  obtain ⟨hostname, addr, addr6, addrHosts⟩ := config
  cases hfresh
  cases inet with
  | none =>
    cases inet6 with
    | none => rfl
    | some given =>
      obtain ⟨rfl, rfl⟩ := hgiven (.inr (by simp))
      rfl
  | some given =>
    obtain ⟨rfl, rfl⟩ := hgiven (.inl (by simp))
    cases inet6 <;> rfl

theorem map_restore_of_fresh (hfresh : ∀ config ∈ configs, config.addrHosts = false) :
    configs.map DhcpConfig.restore = configs := by
  refine (List.map_congr_left fun config hmem ↦ ?_).trans (List.map_id _)
  unfold DhcpConfig.restore
  rw [if_neg (by simp [hfresh config hmem])]
  rfl

theorem restore_dhcpUpdateConfigs (hrestored : configs.map DhcpConfig.restore = k.configs)
    (hcrossed : port = 0 ∨ ¬ Crossed env s k.configs) :
    (dhcpUpdateConfigs env port s configs).2.map DhcpConfig.restore = k.configs := by
  by_cases hport : port = 0
  · have hresult : (dhcpUpdateConfigs env port s configs).2 = k.configs := by
      unfold dhcpUpdateConfigs
      rw [if_pos hport]
      exact hrestored
    rw [hresult, map_restore_of_fresh k.fresh]
  · have hcrossed := hcrossed.resolve_left hport
    refine List.ext_getElem? fun i ↦ ?_
    rw [List.getElem?_map]
    cases hget : k.configs[i]? with
    | none =>
      have hlength : k.configs.length = configs.length := by rw [← hrestored, List.length_map]
      have hover := List.getElem?_eq_none_iff.mp hget
      rw [List.getElem?_eq_none (by rw [length_dhcpUpdateConfigs]; omega)]
      rfl
    | some config =>
      obtain ⟨front, back, hsplit, rfl⟩ := exists_split hget
      rw [getElem?_dhcpUpdateConfigs hport s (hrestored.trans hsplit), Option.map_some]
      refine congrArg some (restore_give (k.fresh config (List.mem_of_getElem? hget)) ?_)
      have hother : ∀ family : Family,
          granted env family (startCache env s (front ++ config :: back) family) front config back ≠
            none → config.address family = none ∧ config.address family.other = none := by
        intro family hgranted
        refine ⟨address_of_granted hgranted, ?_⟩
        by_contra hexplicit
        exact hcrossed ⟨family, front, config, back, hsplit, hexplicit, by rwa [hsplit]⟩
      rintro (hinet | hinet6)
      · exact hother .inet hinet
      · exact (hother .inet6 hinet6).symm

/-! ### The same hosts data -/

namespace SameHostsData

variable {s' : Cache}

theorem ask (h : SameHostsData env s s') (name : List UInt8) (family : Family) :
    (hostsAddress env s name family).2 = (hostsAddress env s' name family).2 ∧
      SameHostsData env (hostsAddress env s name family).1 (hostsAddress env s' name family).1 :=
  ⟨(List.cons.inj (h [(name, family)])).1, fun questions ↦
    (List.cons.inj (h ((name, family) :: questions))).2⟩

theorem offer (h : SameHostsData env s s') (family : Family) (config : DhcpConfig) :
    (hostsOffer env family s config).2 = (hostsOffer env family s' config).2 ∧
      SameHostsData env (hostsOffer env family s config).1 (hostsOffer env family s' config).1 := by
  unfold hostsOffer
  split_ifs
  · cases config.hostname with
    | none => exact ⟨rfl, h⟩
    | some hostname => exact h.ask hostname family
  · exact ⟨rfl, h⟩

theorem offers (family : Family) (configs : List DhcpConfig) :
    ∀ {s s' : Cache}, SameHostsData env s s' →
    (hostsOffers env family s configs).2 = (hostsOffers env family s' configs).2 ∧
      SameHostsData env (hostsOffers env family s configs).1
      (hostsOffers env family s' configs).1 := by
  induction configs with
  | nil => exact fun h ↦ ⟨rfl, h⟩
  | cons config configs ih =>
    intro s s' h
    obtain ⟨hoffer, hnext⟩ := h.offer family config
    obtain ⟨hrest, hlast⟩ := ih hnext
    exact ⟨by simp only [hostsOffers, hoffer, hrest], hlast⟩

theorem granted_eq (h : SameHostsData env s s') (family : Family) (front : List DhcpConfig)
    (config : DhcpConfig) (back : List DhcpConfig) : granted env family s front config back =
      granted env family s' front config back := by
  obtain ⟨hoffers, hnext⟩ := h.offers family front
  unfold granted
  rw [hoffers, (hnext.offer family config).1]

theorem grants_eq (h : SameHostsData env s s') (family : Family) (rest : List DhcpConfig) :
    ∀ front : List DhcpConfig,
    grants env family s front rest = grants env family s' front rest := by
  induction rest with
  | nil => exact fun _ ↦ rfl
  | cons config rest ih => exact fun front ↦ by rw [grants, grants, h.granted_eq, ih]

theorem start (h : SameHostsData env s s') (configs : List DhcpConfig) (family : Family) :
    SameHostsData env (startCache env s configs family) (startCache env s' configs family) := by
  cases family with
  | inet => exact h
  | inet6 => exact (h.offers .inet configs).2

theorem run (h : SameHostsData env s s') (port : ℕ) (configs : List DhcpConfig) :
    (dhcpUpdateConfigs env port s configs).2 = (dhcpUpdateConfigs env port s' configs).2 := by
  by_cases hport : port = 0
  · unfold dhcpUpdateConfigs
    rw [if_pos hport, if_pos hport]
  · rw [dhcpUpdateConfigs_eq hport, dhcpUpdateConfigs_eq hport, h.grants_eq,
      (h.start _ .inet6).grants_eq]

end SameHostsData

theorem dhcpUpdateConfigs_congr {configs' : List DhcpConfig}
    (hrestored : configs.map DhcpConfig.restore = configs'.map DhcpConfig.restore)
    (port : ℕ) (s : Cache) :
    dhcpUpdateConfigs env port s configs = dhcpUpdateConfigs env port s configs' := by
  unfold dhcpUpdateConfigs
  rw [hrestored]

/-! ### All runs -/

/-- No hosts data at all. -/
def emptyCache : Cache where
  crec := fun _ ↦ default
  next := fun _ ↦ none
  prev := fun _ ↦ none
  hash := fun _ ↦ none
  hashSize := 64
  cacheHead := none
  cacheTail := none
  newChain := none
  dhcpSpare := none
  insertError := false
  bigFree := 0
  bignamesLeft := 0
  uid := 0
  live := ∅
  mallocs := 0
  serials := 0

theorem hostsAddress_emptyCache (name : List UInt8) (family : Family) :
    hostsAddress env emptyCache name family = (emptyCache, none) := rfl

theorem hostsOffer_emptyCache (family : Family) (config : DhcpConfig) :
    hostsOffer env family emptyCache config = (emptyCache, none) := by
  unfold hostsOffer
  split_ifs
  · cases config.hostname with
    | none => rfl
    | some hostname => exact hostsAddress_emptyCache hostname family
  · rfl

theorem visitEach_emptyCache (family : Family) (rest : List DhcpConfig) : ∀ done : List DhcpConfig,
    visitEach (updateConfig env family) emptyCache done rest = (emptyCache, done ++ rest) := by
  induction rest with
  | nil => exact fun done ↦ congrArg (emptyCache, ·) (List.append_nil done).symm
  | cons config rest ih =>
    intro done
    rw [visitEach_cons, updateConfig_eq, hostsOffer_emptyCache]
    exact (ih _).trans (by simp [DhcpConfig.give])

theorem dhcpUpdateConfigs_emptyCache (port : ℕ) (configs : List DhcpConfig) :
    (dhcpUpdateConfigs env port emptyCache configs).2 = configs.map DhcpConfig.restore := by
  unfold dhcpUpdateConfigs
  dsimp only
  split_ifs
  · rfl
  · rw [visitEach_emptyCache, visitEach_emptyCache]
    rfl

theorem address_restore (hhosts : config.addrHosts = true) (family : Family) :
    config.restore.address family = none := by
  unfold DhcpConfig.restore
  rw [if_pos hhosts]
  cases family <;> rfl

theorem addrHosts_give {inet inet6 : Option (List UInt8)} (hgiven : inet ≠ none ∨ inet6 ≠ none) :
    ((config.give .inet inet).give .inet6 inet6).addrHosts = true := by
  cases inet6 with
  | some addr => rfl
  | none =>
    cases inet with
    | some addr => rfl
    | none => exact absurd hgiven (by simp)

theorem not_maintained_of_crossed (hport : port ≠ 0) (hcrossed : Crossed env s k.configs) :
    ¬ Maintained env port s k.configs := by
  intro hmaintained
  obtain ⟨family, front, config, back, hsplit, hexplicit, hgranted⟩ := hcrossed
  obtain ⟨addr, haddress⟩ := Option.ne_none_iff_exists'.mp hexplicit
  rw [hsplit] at hgranted
  have hlost := (hmaintained.later emptyCache).explicit front.length family.other addr
    (by simp [hsplit, haddress])
  have hrestored := (map_restore_of_fresh k.fresh).trans hsplit
  have hhosts : ((config.give .inet (granted env .inet s front config back)).give .inet6
      (granted env .inet6 (startCache env s (front ++ config :: back) .inet6) front config
        back)).addrHosts = true := by
    refine addrHosts_give ?_
    cases family with
    | inet => exact .inl hgranted
    | inet6 => exact .inr hgranted
  rw [dhcpUpdateConfigs_emptyCache, List.getElem?_map, getElem?_dhcpUpdateConfigs hport s hrestored,
    Option.map_some, Option.bind_some, address_restore hhosts] at hlost
  exact absurd hlost (by simp)

/-- Addresses are kept, and a second run with the same data changes nothing, exactly if no host with
an explicit address of one family gets one of the other family. -/
theorem maintained_iff (env : Env) (port : ℕ) (s : Cache) (k : Configuration) :
    Maintained env port s k.configs ↔ port = 0 ∨ ¬ Crossed env s k.configs := by
  constructor
  · intro hmaintained
    by_contra hnot
    obtain ⟨hport, hcrossed⟩ := not_or.mp hnot
    exact not_maintained_of_crossed hport (not_not.mp hcrossed) hmaintained
  · intro hcrossed
    have hfresh := map_restore_of_fresh k.fresh
    have hrestored := restore_dhcpUpdateConfigs hfresh hcrossed
    refine ⟨keepsAddresses_of_restored hfresh port s, keepsAddresses_of_restored hrestored port,
      fun s' hsame ↦ ?_⟩
    rw [dhcpUpdateConfigs_congr (hrestored.trans hfresh.symm), hsame.run port k.configs]

/-- A hosts file with an address of the second family for the name `h`. -/
def oneHost : Cache :=
  { emptyCache with
    crec := fun _ ↦ { (default : Crec) with
      flags := {.hosts, .immortal, .forward, .reverse, .ipv6}, name := [104],
        addr := List.replicate 16 7 }
    hash := fun up ↦ if up = .bucket (hashBucket smallEnv 64 [104]) then some 1 else none
    live := {1} }

/-- A host of that name with an explicit address of the first family. -/
def oneConfig : Configuration where
  configs := [⟨some [104], some [10, 0, 0, 1], none, false⟩]
  fresh := by decide
  distinct := by
    intro family
    cases family <;> decide

theorem not_maintained_oneHost : ¬ Maintained smallEnv 53 oneHost oneConfig.configs := by
  refine not_maintained_of_crossed (by decide) ⟨.inet6, [], ⟨some [104], some [10, 0, 0, 1], none,
    false⟩, [], rfl, by decide, ?_⟩
  have hgranted : granted smallEnv .inet6 oneHost [] ⟨some [104], some [10, 0, 0, 1], none, false⟩
    [] =
      some (List.replicate 16 7) := by decide
  exact fun hnone ↦ absurd (hgranted.symm.trans hnone) (by decide)

/-- Any number of runs, each with the hosts data of its time and without a crossed host. -/
theorem keepsAddresses_of_reachable {configs : List DhcpConfig}
    (hreach : Reachable (System.ofStep (· = k.configs) fun configs s ↦
      some (dhcpUpdateConfigs env port s configs).2)
      (fun _ s ↦ port = 0 ∨ ¬ Crossed env s k.configs) configs) :
    configs.map DhcpConfig.restore = k.configs ∧ KeepsAddresses k.configs configs := by
  refine hreach.invariant (fun configs ↦ configs.map DhcpConfig.restore = k.configs ∧
    KeepsAddresses k.configs configs) ?_ ?_
  · rintro _ rfl
    exact ⟨map_restore_of_fresh k.fresh, k.distinct, fun _ _ _ h ↦ h⟩
  · rintro before s after - ⟨hrestored, -⟩ hcrossed hstep
    obtain rfl := Option.some.inj hstep
    exact ⟨restore_dhcpUpdateConfigs hrestored hcrossed,
      keepsAddresses_of_restored hrestored port s⟩

/-- A host with an explicit address, and one that has its name only. -/
def twoConfigs : Configuration where
  configs := [⟨some [103], some [10, 0, 0, 1], none, false⟩, ⟨some [104], none, none, false⟩]
  fresh := by decide
  distinct := by
    intro family
    cases family <;> decide

/-- A hosts file with an address of the first family for the name `h`. -/
def firstHost : Cache :=
  { oneHost with
    crec := fun _ ↦ { (default : Crec) with
      flags := {.hosts, .immortal, .forward, .reverse, .ipv4}, name := [104],
        addr := [10, 0, 0, 9] } }

theorem not_crossed_twoConfigs {s : Cache} (hnone : granted smallEnv .inet6
    (startCache smallEnv s twoConfigs.configs .inet6)
      [] ⟨some [103], some [10, 0, 0, 1], none, false⟩
    [⟨some [104], none, none, false⟩] = none) : ¬ Crossed smallEnv s twoConfigs.configs := by
  rintro ⟨family, front, config, back, hsplit, hexplicit, hgranted⟩
  rcases front with _ | ⟨_, _ | ⟨_, front⟩⟩
  · obtain ⟨rfl, rfl⟩ := List.cons.inj hsplit
    cases family with
    | inet => exact hexplicit rfl
    | inet6 => exact hgranted hnone
  · obtain ⟨-, htail⟩ := List.cons.inj hsplit
    obtain ⟨rfl, rfl⟩ := List.cons.inj htail
    cases family with
    | inet => exact hexplicit rfl
    | inet6 => exact hexplicit rfl
  · exact absurd (congrArg List.length hsplit) (by simp [twoConfigs])

/-- The host gets its address from the hosts file, and another one when the file has changed. -/
theorem keepsAddresses_twoConfigs :
    ∃ first last, (dhcpUpdateConfigs smallEnv 53 firstHost twoConfigs.configs).2 = first ∧
      (dhcpUpdateConfigs smallEnv 53 oneHost first).2 = last ∧
      first.map (·.addr) = [some [10, 0, 0, 1], some [10, 0, 0, 9]] ∧
      last.map (·.addr) = [some [10, 0, 0, 1], none] ∧
      last.map (·.addr6) = [none, some (List.replicate 16 7)] ∧
      KeepsAddresses twoConfigs.configs first ∧ KeepsAddresses twoConfigs.configs last := by
  have hstart : Reachable (System.ofStep (· = twoConfigs.configs) fun configs s ↦
      some (dhcpUpdateConfigs smallEnv 53 s configs).2)
      (fun _ s ↦ 53 = 0 ∨ ¬ Crossed smallEnv s twoConfigs.configs) twoConfigs.configs := .start rfl
  have hfirst := @Reachable.step _ _ _ _ _ _ firstHost hstart
    (.inr (not_crossed_twoConfigs (by decide))) rfl
  have hlast := @Reachable.step _ _ _ _ _ _ oneHost hfirst
    (.inr (not_crossed_twoConfigs (by decide))) rfl
  exact ⟨_, _, rfl, rfl, by decide, by decide, by decide,
    (keepsAddresses_of_reachable hfirst).2, (keepsAddresses_of_reachable hlast).2⟩

end CrossBreeder.Dnsmasq
