import CrossBreeder.Dnsmasq.CacheCalls
import CrossBreeder.Dnsmasq.NameWriting
import CrossBreeder.Foundation.EdgeWalk
import CrossBreeder.Foundation.FallibleFold

/-!
# CNAMEs of the configuration

`add_hosts_cname` and `add_dhcp_cname` call themselves for every alias that they add, and `option.c`
does not look where a `--cname` leads: it only refuses an alias that there is already. The
recursions end for a name unless its own `--cname` options lead back to it (`cnamesEnd_iff`), and in
that case the bound in `addCname` is never reached (`addCnameWithin_cnameDepth`).
-/

namespace CrossBreeder.Dnsmasq

open Foundation

/-! ### The options -/

/-- `meta`. -/
def metaChars : List UInt8 :=
  [0, 49, 50, 51, 52, 53, 54, 32, 8, 9, 10, 55, 56, 13, 57, 48, 97, 98, 99, 100, 101, 102,
    65, 66, 67, 68, 69, 27, 70, 58, 44, 46]

def unhideMetas (text : List UInt8) : List UInt8 := text.map fun c ↦ metaChars.getD c.toNat c

/-- `split_chr`: the text in front of the character without the spaces at its end, and the text
behind it without the spaces at its start. -/
def splitChr (s : List UInt8) (c : UInt8) : Option (List UInt8 × List UInt8) :=
  match s.dropWhile (· ≠ c) with
  | [] => none
  | _ :: comma =>
    some (((s.takeWhile (· ≠ c)).reverse.dropWhile (· = 32)).reverse, comma.dropWhile (· = 32))

/-- `canonicalise_opt`, which does not return if there is no memory. -/
def canonicaliseOpt (s : List UInt8) : Option (List UInt8) := canonicalise (unhideMetas s) true

/-- The part of `one_opt` for a `--cname`, whose argument is changed in place. -/
def oneOptCname (genErr : String) (cnames : List Cname) (arg : List UInt8) :
    Except String (List Cname) :=
  match splitChr arg 44 with
  | none => .error genErr
  | some (arg, comma) =>
    match canonicaliseOpt arg, canonicaliseOpt comma with
    | some aliasName, some target =>
      if cnames.any fun new ↦ hostnameIsequal new.aliasName aliasName then .error "duplicate CNAME"
      else .ok (⟨aliasName, target⟩ :: cnames)
    | _, _ => .error "bad CNAME"

def readCnames (genErr : String) (options : List (List UInt8)) : Except String (List Cname) :=
  options.foldlM (oneOptCname genErr) []

/-! ### The recursion -/

/-- What `add_hosts_cname` and `add_dhcp_cname` do with one `--cname`, with the recursive call. -/
def addAlias (env : Env) (allocate : Cache → Cache × Option Addr) (flags : Flags) (ttd : ℤ → ℤ)
    (expand : Addr → Cache → Option Cache) (target : Addr) (s : Cache) (a : Cname) : Option Cache :=
  if hostnameIsequal (s.name target) a.target then
    match allocate s with
    | (s, none) => some s
    | (s, some crec) =>
      let s := (s.modify crec fun old ↦
        { cnameContents s target a.aliasName flags old with ttd := ttd old.ttd }).renew crec
      expand crec (cacheHash env s crec)
  else some s

/-- `addCname` without its bound: nothing, if the recursion goes deeper than that. -/
def addCnameWithin (env : Env) (allocate : Cache → Cache × Option Addr) (flags : Flags)
    (ttd : ℤ → ℤ) : ℕ → Addr → Cache → Option Cache
  | 0, _, _ => none
  | depth + 1, target, s =>
    env.cnames.foldlM (addAlias env allocate flags ttd (addCnameWithin env allocate flags ttd depth)
      target) s

def hostsCnameFlags : Flags := {.forward, .immortal, .namep, .hosts, .cname}

def dhcpCnameFlags (ttd : ℤ) : Flags := leaseFlags {.forward, .namep, .dhcp, .cname} ttd

/-- `add_hosts_cname`. -/
def addHostsCnameWithin (env : Env) : ℕ → Addr → Cache → Option Cache :=
  addCnameWithin env (mallocRecord env) hostsCnameFlags fun ttd ↦ ttd

/-- `add_dhcp_cname`. -/
def addDhcpCnameWithin (env : Env) (ttd : ℤ) : ℕ → Addr → Cache → Option Cache :=
  addCnameWithin env (takeSpare env) (dhcpCnameFlags ttd) fun old ↦ if ttd = 0 then old else ttd

theorem addCname_eq_of_within {env : Env} {allocate : Cache → Cache × Option Addr} {flags : Flags}
    {ttd : ℤ → ℤ} (depth : ℕ) : ∀ {target : Addr} {s t : Cache},
      addCnameWithin env allocate flags ttd depth target s = some t →
        addCname env allocate flags ttd depth target s = t := by
  induction depth with
  | zero => exact fun h ↦ nomatch h
  | succ depth ih =>
    intro target s t h
    refine foldl_eq_of_foldlM (fun s a t hstep ↦ ?_) h
    unfold addAlias at hstep
    split_ifs at hstep ⊢
    · cases hresult : allocate s with
      | mk s' found =>
        rw [hresult] at hstep
        cases found with
        | none => exact Option.some.inj hstep
        | some crec => exact ih hstep
    · exact Option.some.inj hstep

/-! ### Aliases are distinct -/

/-- The target of a `--cname` in lower case, where an edge starts. -/
def Cname.lowerTarget (a : Cname) : List UInt8 := a.target.map toLower

/-- The alias of a `--cname` in lower case, where an edge ends. -/
def Cname.lowerAlias (a : Cname) : List UInt8 := a.aliasName.map toLower

theorem oneOptCname_ok {genErr : String} {cnames after : List Cname} {arg : List UInt8}
    (h : oneOptCname genErr cnames arg = .ok after) :
    ∃ new : Cname, after = new :: cnames ∧ ∀ old ∈ cnames, old.lowerAlias ≠ new.lowerAlias := by
  unfold oneOptCname at h
  cases hsplit : splitChr arg 44 with
  | none =>
    rw [hsplit] at h
    cases h
  | some parts =>
    obtain ⟨front, comma⟩ := parts
    rw [hsplit] at h
    dsimp only at h
    split at h
    · rename_i aliasName target _ _
      split at h
      · cases h
      · rename_i hnew
        refine ⟨⟨aliasName, target⟩, (Except.ok.inj h).symm, fun old hold hsame ↦ hnew ?_⟩
        exact List.any_eq_true.mpr ⟨old, hold, hostnameIsequal_iff.mpr hsame⟩
    · cases h

variable {cnames : List Cname}

theorem headsDistinct_of_readCnames {genErr : String} {options : List (List UInt8)}
    (haccepted : readCnames genErr options = .ok cnames) :
    HeadsDistinct Cname.lowerAlias cnames := by
  have hall : ∀ before, HeadsDistinct Cname.lowerAlias before →
      options.foldlM (oneOptCname genErr) before = .ok cnames →
        HeadsDistinct Cname.lowerAlias cnames := by
    clear haccepted
    induction options with
    | nil =>
      intro before hbefore h
      rwa [← Except.ok.inj h]
    | cons arg options ih =>
      intro before hbefore h
      rw [List.foldlM_cons] at h
      cases hone : oneOptCname genErr before arg with
      | error =>
        rw [hone] at h
        cases h
      | ok after =>
        rw [hone] at h
        obtain ⟨new, rfl, hnew⟩ := oneOptCname_ok hone
        refine ih _ (fun e he f hf hsame ↦ ?_) h
        rcases List.mem_cons.mp he with rfl | heOld <;> rcases List.mem_cons.mp hf with rfl | hfOld
        · rfl
        · exact absurd hsame.symm (hnew f hfOld)
        · exact absurd hsame (hnew e heOld)
        · exact hbefore e heOld f hfOld hsame
  exact hall [] (fun _ he ↦ absurd he List.not_mem_nil) haccepted

/-- The `--cname` options lead from a name back to it. -/
def CnameLeadsBack (cnames : List Cname) (name : List UInt8) : Prop :=
  LeadsBack Cname.lowerTarget Cname.lowerAlias cnames (name.map toLower)

/-! ### One alias -/

variable {env : Env} {allocate : Cache → Cache × Option Addr} {flags : Flags} {ttd : ℤ → ℤ}

structure Ample (env : Env) (s : Cache) : Prop where
  granted : ∀ n, ∃ contents, env.malloc n = some (env.cachesize + n, contents)
  unused : ∀ crecp ∈ s.live, crecp < env.cachesize + s.mallocs

theorem ample_mallocRecord {s : Cache} (h : Ample env s) :
    Ample env (mallocRecord env s).1 ∧ (mallocRecord env s).2.isSome := by
  obtain ⟨contents, hgranted⟩ := h.granted s.mallocs
  have hnew : env.cachesize + s.mallocs ∉ s.live := fun hlive ↦ Nat.lt_irrefl _ (h.unused _ hlive)
  have hresult : mallocRecord env s = ({ s with
      mallocs := s.mallocs + 1
      live := insert (env.cachesize + s.mallocs) s.live
      crec := Function.update s.crec (env.cachesize + s.mallocs) contents },
      some (env.cachesize + s.mallocs)) := by
    unfold mallocRecord
    rw [hgranted]
    exact if_neg hnew
  rw [hresult]
  refine ⟨⟨h.granted, fun crecp hlive ↦ ?_⟩, rfl⟩
  rcases Finset.mem_insert.mp hlive with rfl | hold
  · exact Nat.lt_succ_self _
  · exact Nat.lt_succ_of_lt (h.unused crecp hold)

theorem ample_takeSpare {s : Cache} (h : Ample env s) :
    Ample env (takeSpare env s).1 ∧ (takeSpare env s).2.isSome := by
  unfold takeSpare
  cases s.dhcpSpare with
  | none => exact ample_mallocRecord h
  | some crec => exact ⟨⟨h.granted, h.unused⟩, rfl⟩

structure Allocates (env : Env) (allocate : Cache → Cache × Option Addr) : Prop where
  obtained : ∀ {s : Cache} {g : Ghost}, Shape env s g → Obtained env s g (allocate s)
  ample : ∀ {s : Cache}, Ample env s → Ample env (allocate s).1 ∧ (allocate s).2.isSome

theorem allocates_mallocRecord : Allocates env (mallocRecord env) :=
  ⟨mallocRecord_spec, ample_mallocRecord⟩

theorem allocates_takeSpare : Allocates env (takeSpare env) := ⟨takeSpare_spec, ample_takeSpare⟩

theorem Grown.name_eq {before after : Cache × Ghost} (h : Grown env before after) {record : Addr}
    (hmem : ∃ i, record ∈ before.2.chain i) : after.1.name record = before.1.name record := by
  unfold Cache.name
  rw [(h.hashed record hmem).2]

structure Expanding (env : Env) (flags : Flags) (target : Addr) (name : List UInt8)
    (s : Cache) (g : Ghost) : Prop where
  shape : Shape env s g
  isTarget : CnameTarget env flags s g target
  hasName : s.name target = name

variable {name : List UInt8}

variable {target : Addr}

theorem Expanding.grown {s t : Cache} {g g' : Ghost}
    (h : Expanding env flags target name s g) (hgrown : Grown env (s, g) (t, g')) :
    Expanding env flags target name t g' :=
  ⟨h.shape.steps hgrown.steps, h.isTarget.grown hgrown,
    (hgrown.name_eq h.isTarget.hashed).trans h.hasName⟩

/-- The ways in which an alias is dealt with. -/
inductive AliasStep (env : Env) (allocate : Cache → Cache × Option Addr) (flags : Flags)
    (expand : Addr → Cache → Option Cache) (name : List UInt8) (s : Cache) (g : Ghost) (a : Cname) :
    Option Cache → Prop
  | skip {t : Cache} {g' : Ghost} (hgrown : Grown env (s, g) (t, g'))
    (hample : Ample env s → Ample env t)
      (hwhy : hostnameIsequal name a.target = false ∨ (allocate s).2 = none) :
      AliasStep env allocate flags expand name s g a (some t)
  | add {crec : Addr} {t : Cache} {g' : Ghost} (hequal : hostnameIsequal name a.target = true)
      (hgrown : Grown env (s, g) (t, g')) (hample : Ample env s → Ample env t)
      (hnext : Expanding env flags crec a.aliasName t g') :
      AliasStep env allocate flags expand name s g a (expand crec t)

theorem addAlias_step (hallocate : Allocates env allocate) (hused : InUse flags)
    (hlocal : Meets flags localFlags) (ttd : ℤ → ℤ) (expand : Addr → Cache → Option Cache)
    {s : Cache} {g : Ghost} (h : Expanding env flags target name s g) (a : Cname) :
    AliasStep env allocate flags expand name s g a
      (addAlias env allocate flags ttd expand target s a) := by
  unfold addAlias
  rw [h.hasName]
  split_ifs with hequal
  · have hobtained := hallocate.obtained h.shape
    have hample := fun hample : Ample env s ↦ (hallocate.ample hample).1
    cases hresult : allocate s with
    | mk s' found =>
      rw [hresult] at hobtained hample
      cases hobtained with
      | none hsteps hcrec =>
        exact .skip ⟨hsteps, LocalFrame.refl g, fun record hmem ↦ ⟨hmem, by rw [hcrec]⟩⟩ hample
          (.inr (by rw [hresult]))
      | @some _ g' crec hsteps hframe hchain hcrec =>
        obtain ⟨g'', hgrown, hcname⟩ := grown_cname h.shape hsteps hframe hchain hcrec hused hlocal
          h.isTarget a.aliasName ttd
        refine .add hequal hgrown.toGrown (fun hs ↦ ?_) ⟨h.shape.steps hgrown.steps, hcname, ?_⟩
        · exact ⟨(hample hs).granted, (hample hs).unused⟩
        · simp [cacheHash, Cache.setLink, Cache.name, Cache.renew, Cache.modify, cnameContents]
  · exact .skip (Grown.refl _) id (.inl (by simpa using hequal))

/-! ### The recursion ends -/

theorem grown_of_within (hallocate : Allocates env allocate) (hused : InUse flags)
    (hlocal : Meets flags localFlags) {depth : ℕ} {s t : Cache} {g : Ghost}
    (h : Expanding env flags target name s g)
    (hresult : addCnameWithin env allocate flags ttd depth target s = some t) :
    ∃ g', Grown env (s, g) (t, g') := by
  obtain ⟨g', hgrown⟩ := addCname_grown hallocate.obtained hused hlocal ttd depth h.shape h.isTarget
  rw [addCname_eq_of_within depth hresult] at hgrown
  exact ⟨g', hgrown.toGrown⟩

/-- The recursion goes no deeper than the walks from the name. -/
theorem exists_addCnameWithin (hallocate : Allocates env allocate) (hused : InUse flags)
    (hlocal : Meets flags localFlags) (ttd : ℤ → ℤ) (depth : ℕ) :
    ∀ {target : Addr} {name : List UInt8} {s : Cache} {g : Ghost},
      Expanding env flags target name s g →
      (∀ walk, Walk Cname.lowerTarget Cname.lowerAlias env.cnames (name.map toLower) walk →
        walk.length < depth) →
      ∃ t, addCnameWithin env allocate flags ttd depth target s = some t := by
  induction depth with
  | zero => exact fun _ hwalks ↦ absurd (hwalks [] (.nil _)) (Nat.not_lt_zero _)
  | succ depth ih =>
    intro target name s g h hwalks
    have hloop := @exists_foldlM_of_steps _ _
      (addAlias env allocate flags ttd (addCnameWithin env allocate flags ttd depth) target)
        env.cnames
      (fun s ↦ ∃ g, Expanding env flags target name s g) ?_ s ⟨g, h⟩
    · obtain ⟨t, ht, -⟩ := hloop
      exact ⟨t, ht⟩
    · rintro a ha s ⟨g, h⟩
      have hstep :=
        addAlias_step hallocate hused hlocal ttd (addCnameWithin env allocate flags ttd depth) h a
      generalize addAlias env allocate flags ttd (addCnameWithin env allocate flags ttd depth)
        target s a = result at hstep
      cases hstep with
      | skip hgrown => exact ⟨_, rfl, _, h.grown hgrown⟩
      | @add crec t g' hequal hgrown _ hnext =>
        have hshorter : ∀ walk, Walk Cname.lowerTarget Cname.lowerAlias env.cnames
            (a.aliasName.map toLower) walk → walk.length < depth := by
          intro walk hwalk
          have hfrom : name.map toLower = a.lowerTarget := hostnameIsequal_iff.mp hequal
          have := hwalks (a :: walk) (by rw [hfrom]; exact .cons ha hwalk)
          simpa using this
        obtain ⟨t', ht'⟩ := ih hnext hshorter
        obtain ⟨g'', hgrown'⟩ := grown_of_within hallocate hused hlocal hnext ht'
        exact ⟨t', ht', g'', h.grown (hgrown.trans hgrown')⟩

/-- Without a loop the bound that `addCname` has is enough. -/
theorem addCnameWithin_cnameDepth (hallocate : Allocates env allocate) (hused : InUse flags)
    (hlocal : Meets flags localFlags) (ttd : ℤ → ℤ)
    (hdistinct : HeadsDistinct Cname.lowerAlias env.cnames) {s : Cache} {g : Ghost}
    (h : Expanding env flags target name s g) (hback : ¬ CnameLeadsBack env.cnames name) :
    addCnameWithin env allocate flags ttd (cnameDepth env) target s =
      some (addCname env allocate flags ttd (cnameDepth env) target s) := by
  obtain ⟨t, ht⟩ := exists_addCnameWithin hallocate hused hlocal ttd (cnameDepth env) h
    fun walk hwalk ↦ Nat.lt_succ_of_le (hwalk.length_le hdistinct hback)
  rw [ht, addCname_eq_of_within _ ht]

/-! ### The recursion does not end -/

theorem ample_addCname (hallocate : Allocates env allocate) (fuel : ℕ) :
    ∀ {target : Addr} {s : Cache},
    Ample env s → Ample env (addCname env allocate flags ttd fuel target s) := by
  induction fuel with
  | zero => exact fun h ↦ h
  | succ fuel ih =>
    intro target s h
    unfold addCname
    induction env.cnames generalizing s with
    | nil => exact h
    | cons a cnames ihCnames =>
      rw [List.foldl_cons]
      refine ihCnames ?_
      split_ifs
      · have hample := (hallocate.ample h).1
        cases hresult : allocate s with
        | mk s' found =>
          rw [hresult] at hample
          cases found with
          | none => exact hample
          | some crec => exact ih ⟨hample.granted, hample.unused⟩
      · exact h

/-- A recursion that has a walk before it goes as deep as the walk is long. -/
theorem addCnameWithin_of_walk (hallocate : Allocates env allocate) (hused : InUse flags)
    (hlocal : Meets flags localFlags) (ttd : ℤ → ℤ) {node : List UInt8} {walk : List Cname}
    (hwalk : Walk Cname.lowerTarget Cname.lowerAlias env.cnames node walk) :
    ∀ {target : Addr} {name : List UInt8} {s : Cache} {g : Ghost}, node = name.map toLower →
      Expanding env flags target name s g → Ample env s →
      addCnameWithin env allocate flags ttd walk.length target s = none := by
  induction hwalk with
  | nil => exact fun _ _ _ ↦ rfl
  | @cons a rest hmem hrest ih =>
    intro target name s g hnode h hample
    refine @foldlM_eq_none_of_step _ _ _ _
      (fun s ↦ ∃ g, Expanding env flags target name s g ∧ Ample env s) ?_ a hmem ?_ s ⟨g, h, hample⟩
    · rintro s b t ⟨g, h, hample⟩ hresult
      have hstep := addAlias_step hallocate hused hlocal ttd
        (addCnameWithin env allocate flags ttd rest.length) h b
      rw [hresult] at hstep
      generalize hsome : some t = result at hstep
      cases hstep with
      | skip hgrown hsame =>
        cases hsome
        exact ⟨_, h.grown hgrown, hsame hample⟩
      | @add crec t' g' _ hgrown hsame hnext =>
        obtain ⟨g'', hgrown'⟩ := grown_of_within hallocate hused hlocal hnext hsome.symm
        refine ⟨g'', h.grown (hgrown.trans hgrown'), ?_⟩
        rw [← addCname_eq_of_within _ hsome.symm]
        exact ample_addCname hallocate _ (hsame hample)
    · rintro s ⟨g, h, hample⟩
      have hstep := addAlias_step hallocate hused hlocal ttd
        (addCnameWithin env allocate flags ttd rest.length) h a
      generalize addAlias env allocate flags ttd (addCnameWithin env allocate flags ttd rest.length)
        target s a = result at hstep
      cases hstep with
      | skip _ _ hwhy =>
        have hequal : hostnameIsequal name a.target = true := hostnameIsequal_iff.mpr hnode.symm
        rcases hwhy with hother | hnone
        · rw [hequal] at hother
          cases hother
        · have hsome := (hallocate.ample hample).2
          rw [hnone] at hsome
          cases hsome
      | add _ _ hsame hnext => exact ih rfl hnext (hsame hample)

/-! ### Where the recursions start -/

/-- A system with any options that has no pool and never runs out of memory. -/
def ampleEnv (cnames : List Cname) : Env where
  cachesize := 0
  maxCacheTtl := 0
  cnames := cnames
  optExpand := false
  packetBuffSz := 4096
  mixTab := fun _ ↦ 0
  clobber := id
  malloc := fun n ↦ some (n, default)

theorem ample_cacheInit (cnames : List Cname) :
    Ample (ampleEnv cnames) (cacheInit (ampleEnv cnames) default) :=
  ⟨fun n ↦ ⟨default, by simp [ampleEnv]⟩, fun _ hlive ↦ absurd hlive (Finset.notMem_empty _)⟩

theorem exists_expanding (cnames : List Cname) (name : List UInt8) {flags own : Flags}
    (hused : InUse own) (hlocal : Meets own localFlags) (hcname : .cname ∉ own)
    (hkind : flags ∩ localFlags = own ∩ localFlags) :
    ∃ s g target, Expanding (ampleEnv cnames) flags target name s g ∧ Ample
      (ampleEnv cnames) s := by
  have hstart := (sound_cacheInit (ampleEnv cnames) default).shape
  have hample := ample_mallocRecord (ample_cacheInit cnames)
  have hobtained := mallocRecord_spec hstart
  cases hresult : mallocRecord (ampleEnv cnames) (cacheInit (ampleEnv cnames) default) with
  | mk s found =>
    rw [hresult] at hobtained hample
    cases hobtained with
    | none => cases hample.2
    | @some _ g record hsteps hframe _ _ =>
      have hheld : g.held = record :: [] := hframe.held
      have hmem : record ∈ g.held := by simp [hheld]
      obtain ⟨t, ht⟩ : ∃ t, t = { s with
        crec := Function.update s.crec record { s.crec record with flags := own, name := name }
        serials := s.serials } := ⟨_, rfl⟩
      have hwritten :=
        (hstart.steps hsteps).writeHeld hmem { s.crec record with flags := own, name := name }
        s.serials
      rw [← ht] at hwritten
      have hflags : t.flags record = own := by simp [Cache.flags, ht]
      have hname : t.name record = name := by simp [Cache.name, ht]
      obtain ⟨g', hsteps', -, hchain⟩ := steps_hashHeld hwritten hheld (by rw [hflags]; exact hused)
        (by rw [hflags]; exact hlocal) fun hmem ↦ absurd hmem (by rw [hflags]; exact hcname)
      refine ⟨_, g', record, ⟨hwritten.steps hsteps', ⟨(hchain record).mpr (.inr rfl), ?_, ?_⟩,
        hname⟩, ?_⟩
      · exact hwritten.le_of_mem_held hmem
      · exact hkind.trans (congrArg (· ∩ localFlags) hflags.symm)
      · rw [ht]
        exact ⟨hample.1.granted, hample.1.unused⟩

/-! ### Both recursions -/

/-- A recursion over the options ends for every record of the name, in every state of the cache. -/
def CnamesEnd (cnames : List Cname) (name : List UInt8) (flags : Flags)
    (add : Env → ℕ → Addr → Cache → Option Cache) : Prop :=
  ∀ (env : Env) (target : Addr) (s : Cache) (g : Ghost), env.cnames = cnames →
    Expanding env flags target name s g → ∃ depth t, add env depth target s = some t

/-- `add_hosts_cname` ends for the name. -/
def HostsCnamesEnd (cnames : List Cname) (name : List UInt8) : Prop :=
  CnamesEnd cnames name hostsCnameFlags addHostsCnameWithin

/-- `add_dhcp_cname` ends for the name. -/
def DhcpCnamesEnd (cnames : List Cname) (name : List UInt8) : Prop :=
  ∀ ttd, CnamesEnd cnames name (dhcpCnameFlags ttd) fun env ↦ addDhcpCnameWithin env ttd

/-- The recursion ends for every record of a name, whatever memory there is, exactly if the options
do not lead back to the name. -/
theorem cnamesEnd_iff_of_allocates (hdistinct : HeadsDistinct Cname.lowerAlias cnames)
    (name : List UInt8) {flags : Flags} (own : Flags) {ttd : ℤ → ℤ}
    {allocate : Env → Cache → Cache × Option Addr}
    (hallocate : ∀ env, Allocates env (allocate env)) (hused : InUse flags)
    (hlocal : Meets flags localFlags) (hown : InUse own) (hcname : .cname ∉ own)
    (hkind : flags ∩ localFlags = own ∩ localFlags) :
    CnamesEnd cnames name flags (fun env ↦ addCnameWithin env (allocate env) flags ttd) ↔
      ¬ CnameLeadsBack cnames name := by
  constructor
  · intro hend hback
    have hownLocal : Meets own localFlags := by
      unfold Meets
      rw [← hkind]
      exact hlocal
    obtain ⟨s, g, target, h, hample⟩ := exists_expanding cnames name hown hownLocal hcname hkind
    obtain ⟨depth, t, ht⟩ := hend _ target s g rfl h
    obtain ⟨walk, rfl, hwalk⟩ := exists_walk hback depth
    have hnone := addCnameWithin_of_walk (hallocate _) hused hlocal ttd hwalk rfl h hample
    cases hnone.symm.trans ht
  · rintro hback env target s g rfl h
    exact ⟨_, _, addCnameWithin_cnameDepth (hallocate env) hused hlocal ttd hdistinct h hback⟩

theorem hostsCnamesEnd_iff (hdistinct : HeadsDistinct Cname.lowerAlias cnames)
    (name : List UInt8) : HostsCnamesEnd cnames name ↔ ¬ CnameLeadsBack cnames name :=
  cnamesEnd_iff_of_allocates hdistinct name {.forward, .hosts} (fun _ ↦ allocates_mallocRecord)
    (by decide) (by decide) (by decide) (by decide) (by decide)

theorem dhcpCnamesEnd_iff (hdistinct : HeadsDistinct Cname.lowerAlias cnames)
    (name : List UInt8) : DhcpCnamesEnd cnames name ↔ ¬ CnameLeadsBack cnames name := by
  have hone : ∀ ttd, CnamesEnd cnames name (dhcpCnameFlags ttd) (fun env ↦
    addDhcpCnameWithin env ttd) ↔
      ¬ CnameLeadsBack cnames name := by
    intro ttd
    have hflags : dhcpCnameFlags ttd = {.immortal, .forward, .namep, .dhcp, .cname} ∨
        dhcpCnameFlags ttd = {.forward, .namep, .dhcp, .cname} := by
      unfold dhcpCnameFlags leaseFlags
      split_ifs
      · exact .inl rfl
      · exact .inr rfl
    refine cnamesEnd_iff_of_allocates hdistinct name {.forward, .dhcp} (fun _ ↦ allocates_takeSpare)
      ?_ ?_ (by decide) (by decide) ?_
    all_goals rcases hflags with h | h <;> rw [h] <;> decide
  exact ⟨fun h ↦ (hone 0).mp (h 0), fun h ttd ↦ (hone ttd).mpr h⟩

/-- For accepted options both recursions end exactly for the names to which their own options do not
lead back, and for these the options make no loop that can be reached. -/
theorem cnamesEnd_iff {genErr : String} {options : List (List UInt8)} {cnames : List Cname}
    (haccepted : readCnames genErr options = .ok cnames) (name : List UInt8) :
    (HostsCnamesEnd cnames name ↔ ¬ CnameLeadsBack cnames name) ∧
      (DhcpCnamesEnd cnames name ↔ ¬ CnameLeadsBack cnames name) ∧
      ((∀ node, Relation.ReflTransGen (Edge Cname.lowerTarget Cname.lowerAlias cnames)
      (name.map toLower) node →
        ¬ LeadsBack Cname.lowerTarget Cname.lowerAlias cnames node) ↔
        ¬ CnameLeadsBack cnames name) := by
  have hdistinct := headsDistinct_of_readCnames haccepted
  refine ⟨hostsCnamesEnd_iff hdistinct name, dhcpCnamesEnd_iff hdistinct name,
    fun h ↦ h _ .refl, ?_⟩
  intro hback node hreach hloop
  rcases Relation.reflTransGen_iff_eq_or_transGen.mp hreach with rfl | hmore
  · exact hback hloop
  · exact hback (leadsBack_of_transGen hdistinct hmore hloop)

theorem cnamesEnd_iff_single :
    (HostsCnamesEnd [⟨[97], [98]⟩] [98] ↔ ¬ CnameLeadsBack [⟨[97], [98]⟩] [98]) ∧
    (DhcpCnamesEnd [⟨[97], [98]⟩] [98] ↔ ¬ CnameLeadsBack [⟨[97], [98]⟩] [98]) ∧
    ((∀ node, Relation.ReflTransGen (Edge Cname.lowerTarget Cname.lowerAlias [⟨[97], [98]⟩])
        (List.map toLower [98]) node →
      ¬ LeadsBack Cname.lowerTarget Cname.lowerAlias [⟨[97], [98]⟩] node) ↔
      ¬ CnameLeadsBack [⟨[97], [98]⟩] [98]) :=
  cnamesEnd_iff (show readCnames "try --help" [[97, 44, 98]] = .ok [⟨[97], [98]⟩] by rfl) [98]

/-- The option `--cname=a,a` is accepted, and neither recursion ends for the name `a`. -/
theorem not_cnamesEnd_ownAlias : readCnames "try --help" [[97, 44, 97]] = .ok [⟨[97], [97]⟩] ∧
    ¬ HostsCnamesEnd [⟨[97], [97]⟩] [97] ∧ ¬ DhcpCnamesEnd [⟨[97], [97]⟩] [97] := by
  have haccepted : readCnames "try --help" [[97, 44, 97]] = .ok [⟨[97], [97]⟩] := rfl
  have hdistinct := headsDistinct_of_readCnames haccepted
  have hback : CnameLeadsBack [⟨[97], [97]⟩] [97] :=
    .single ⟨⟨[97], [97]⟩, List.mem_singleton_self _, rfl, rfl⟩
  exact ⟨haccepted, fun h ↦ (hostsCnamesEnd_iff hdistinct [97]).mp h hback,
    fun h ↦ (dhcpCnamesEnd_iff hdistinct [97]).mp h hback⟩

end CrossBreeder.Dnsmasq
