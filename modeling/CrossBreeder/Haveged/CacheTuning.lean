import CrossBreeder.Foundation.BoundedTable
import CrossBreeder.Foundation.CString
import CrossBreeder.Foundation.ListUpdate
import CrossBreeder.Haveged.CpuMasks

/-!
# Cache tuning

`havege_tune` collects the caches that the options, the processor and the files of the kernel name,
and the defaults behind them, in a table with room for eight, and takes the first of level one for
data and the first for instructions. Both are found exactly if one of each is named in time and the
masks and lists of processors on the way are read without harm (`tuned_iff`).
-/

namespace CrossBreeder.Haveged

open Foundation (atoi unsignedInt numeral fgets scanField insertBounded boundedTable)

/-! ### The table -/

def maxCaches : ℕ := 8

/-- `SRC_DEFAULT`, `SRC_PARAM` and `SRC_VFS_INDEX`. -/
def srcDefault : ℕ := 1
def srcParam : ℕ := 2
def srcVfsIndex : ℕ := 0x40

/-- `GENERIC_ICACHE` and `GENERIC_DCACHE`. -/
def genericIcache : ℕ := 16
def genericDcache : ℕ := 16

structure CacheInst where
  cpuMap : TopoMap
  type : ℕ
  level : ℕ
  size : ℕ

/-- What the caches of `HOST_CFG` depend on. The number of caches is `ctCache`. -/
structure HostCfg where
  pAllowed : TopoMap
  pOnline : TopoMap
  pCacheInfo : TopoMap
  mAllowed : TopoMap
  caches : List CacheInst

/-- The configuration of `calloc`. -/
def HostCfg.cleared : HostCfg := ⟨.cleared, .cleared, .cleared, .cleared, []⟩

/-- The arguments of `cfg_cacheAdd`, without a processor where it is for all. -/
structure CacheArgs where
  src : ℕ
  cpu : Option ℕ
  level : ℕ
  type : ℕ
  kb : ℕ

/-- What `cfg_cacheAdd` does to the map of an entry. -/
def addToMap (pCacheInfo : TopoMap) (args : CacheArgs) (map : TopoMap) : TopoMap :=
  let map := match args.cpu with
    | none => cfgBitMerge map pCacheInfo
    | some cpu => cfgBitSet map cpu
  { map with source := map.source ||| args.src }

def cfgCacheAdd (cfg : HostCfg) (args : CacheArgs) : HostCfg :=
  if 3 < args.level ∨ args.kb = 0 then cfg
  else
    let i := cfg.caches.findIdx fun cache ↦ cache.level = args.level ∧ cache.type = args.type ∧
      cache.size = args.kb
    if maxCaches ≤ i then cfg
    else if i < cfg.caches.length then
      { cfg with caches := cfg.caches.modify i fun cache ↦
        { cache with cpuMap := addToMap cfg.pCacheInfo args cache.cpuMap } }
    else
      { cfg with caches := cfg.caches ++ [{
          cpuMap := addToMap cfg.pCacheInfo args .cleared
          type := args.type
          level := args.level
          size := args.kb }] }

/-! ### The files of the kernel -/

inductive CacheFile
  | level
  | type
  | size

/-- The files that are read, the directory of the processors and those of their caches. -/
structure SysFs where
  status : Option (List UInt8)
  online : Option (List UInt8)
  cpu : Option (List (List UInt8))
  cache : ℕ → Option (List (List UInt8))
  file : ℕ → ℤ → CacheFile → Option (List UInt8)

/-- The lines that `fgets` reads, with a bound on their number. -/
def linesOf : ℕ → List UInt8 → List (List UInt8)
  | 0, _ => []
  | lines + 1, content => if content =
    [] then [] else (fgets 255 content).1 :: linesOf lines (fgets 255 content).2

/-- The lines of a file. There are at most as many as bytes. -/
def fileLines (file : Option (List UInt8)) : List (List UInt8) :=
  (file.map fun content ↦ linesOf content.length content).getD []

/-- `vfs_configFile` for what reads a number: the first line with one that is not zero counts. -/
def vfsConfigFile (filter : List UInt8 → ℤ) (file : Option (List UInt8)) : ℤ :=
  if fileLines file = [] then -1 else (((fileLines file).map filter).find? (· ≠ 0)).getD 0

def vfsConfigInt (input : List UInt8) : ℤ := atoi 32 input

/-- `vfs_configType`, with the sign of a `char`. -/
def vfsConfigType (input : List UInt8) : ℤ :=
  let c := input.headD 0
  if c < 128 then c.toNat else c.toNat - 256

/-- `Cpus_allowed` and `Mems_allowed`. -/
def cpusAllowed : List UInt8 := [67, 112, 117, 115, 95, 97, 108, 108, 111, 119, 101, 100]
def memsAllowed : List UInt8 := [77, 101, 109, 115, 95, 97, 108, 108, 111, 119, 101, 100]

/-- The key and the value of a line. -/
def statusField (input : List UInt8) : Option (List UInt8 × List UInt8) :=
  let text := input.takeWhile (· ≠ 0)
  if 58 ∈ text then
    match scanField 31 (text.takeWhile (· ≠ 58)),
      scanField 223 ((text.dropWhile (· ≠ 58)).drop 1) with
    | some (key, _), some (value, _) => some (key, value)
    | _, _ => none
  else none

def vfsConfigStatus (cfg : HostCfg) (input : List UInt8) : Option HostCfg :=
  match statusField input with
  | none => some cfg
  | some (key, value) =>
    if key = cpusAllowed then (vfsParseMask cfg.pAllowed value).map fun map ↦
      { cfg with pAllowed := map }
    else if key = memsAllowed then (vfsParseMask cfg.mAllowed value).map fun map ↦
      { cfg with mAllowed := map }
    else some cfg

/-- `vfs_configOnline`, after which no further line is read. -/
def vfsConfigOnline (rounds : ℕ) (cfg : HostCfg) (lines : List (List UInt8)) : Option HostCfg :=
  match lines with
  | [] => some cfg
  | input :: _ => (vfsParseList rounds cfg.pOnline input).map fun map ↦ { cfg with pOnline := map }

/-- A number as `%d` prints it. -/
def signedNumeral (n : ℤ) :
    List UInt8 := if n < 0 then 45 :: numeral 10 n.natAbs else numeral 10 n.natAbs

def numberBehind (word name : List UInt8) : Option ℤ :=
  if word.length < name.length ∧ word ++ signedNumeral (atoi 32 (name.drop word.length)) = name then
    some (atoi 32 (name.drop word.length))
  else none

def vfsConfigCpuDir (pCacheInfo : TopoMap) (input : List UInt8) : TopoMap :=
  match numberBehind [99, 112, 117] input with
  | none => pCacheInfo
  | some cpu => cfgBitSet pCacheInfo cpu

/-- What `vfs_configInfoCache` reads of a cache. -/
def indexArgs (fs : SysFs) (cpu : ℕ) (input : List UInt8) : Option CacheArgs :=
  (numberBehind [105, 110, 100, 101, 120] input).map fun idx ↦ {
    src := srcVfsIndex
    cpu := some cpu
    level := unsignedInt (vfsConfigFile vfsConfigInt (fs.file cpu idx .level))
    type := unsignedInt (vfsConfigFile vfsConfigType (fs.file cpu idx .type))
    kb := unsignedInt (vfsConfigFile vfsConfigInt (fs.file cpu idx .size)) }

def vfsConfigInfoCache (fs : SysFs) (cpu : ℕ) (cfg : HostCfg) (input : List UInt8) : HostCfg :=
  match indexArgs fs cpu input with
  | none => cfg
  | some args => cfgCacheAdd cfg args

/-- `vfs_config`, as far as the caches depend on it. -/
def vfsConfig (rounds : ℕ) (fs : SysFs) (cfg : HostCfg) : Option HostCfg := do
  let cfg ← (fileLines fs.status).foldlM vfsConfigStatus cfg
  let cfg ← vfsConfigOnline rounds cfg (fileLines fs.online)
  let cfg := { cfg with pCacheInfo := (fs.cpu.getD []).foldl vfsConfigCpuDir cfg.pCacheInfo }
  some ((cpusOf cfg.pCacheInfo).foldl (fun cfg cpu ↦
    ((fs.cache cpu).getD []).foldl (vfsConfigInfoCache fs cpu) cfg) cfg)

/-! ### The choice -/

/-- One round of the last loop, with `i_tune` and `d_tune`. -/
def tuneRound (caches : List CacheInst) (tune : ℕ × ℕ) (i : ℕ) : ℕ × ℕ :=
  match caches[i]? with
  | none => tune
  | some cache =>
    if cache.level = 1 then
      if cache.type = 73 ∨ cache.type = 84 then if i < tune.1 then (i, tune.2) else tune
      else if cache.type = 68 then if i < tune.2 then (tune.1, i) else tune
      else tune
    else tune

/-- The caches that `havege_tune` collects. What `CPUID_CONFIG` adds is given, and is nothing where
there is no `CPUID`. -/
def collectCaches (rounds : ℕ) (cpuid : List CacheArgs) (fs : SysFs) (icacheSize dcacheSize : ℕ) :
    Option HostCfg :=
  let cfg := if icacheSize ≠ 0 then cfgCacheAdd .cleared ⟨srcParam, none, 1, 73, icacheSize⟩
    else .cleared
  let cfg := if dcacheSize ≠ 0 then cfgCacheAdd cfg ⟨srcParam, none, 1, 68, dcacheSize⟩ else cfg
  if icacheSize = 0 ∨ dcacheSize = 0 then do
    let cfg ← vfsConfig rounds fs (cpuid.foldl cfgCacheAdd cfg)
    let cfg := cfgCacheAdd cfg ⟨srcDefault, none, 1, 73, genericIcache⟩
    some (cfgCacheAdd cfg ⟨srcDefault, none, 1, 68, genericDcache⟩)
  else some cfg

/-- `havege_tune`: the caches, with `i_tune` and `d_tune`. -/
def havegeTune (rounds : ℕ) (cpuid : List CacheArgs) (fs : SysFs) (icacheSize dcacheSize : ℕ) :
    Option (HostCfg × (ℕ × ℕ)) :=
  (collectCaches rounds cpuid fs icacheSize dcacheSize).map fun cfg ↦
    (cfg, (List.range cfg.caches.length).foldl (tuneRound cfg.caches) (maxCaches + 2,
      maxCaches + 2))

/-! ### What is asked for -/

/-- A cache for instructions, as its level, its type and its size. -/
def IsICache (key : ℕ × ℕ × ℕ) : Prop := key.1 = 1 ∧ (key.2.1 = 73 ∨ key.2.1 = 84)

def IsDCache (key : ℕ × ℕ × ℕ) : Prop := key.1 = 1 ∧ key.2.1 = 68

instance : DecidablePred IsICache := fun _ ↦ inferInstanceAs (Decidable (_ ∧ _))

instance : DecidablePred IsDCache := fun _ ↦ inferInstanceAs (Decidable (_ ∧ _))

def CacheInst.key (cache : CacheInst) : ℕ × ℕ × ℕ := (cache.level, cache.type, cache.size)

/-- `havege_tune` ends, nothing was written outside, both caches are found and the table is within
its bound. -/
def Tuned (cpuid : List CacheArgs) (fs : SysFs) (icacheSize dcacheSize : ℕ) : Prop :=
  ∃ rounds cfg iTune dTune, havegeTune rounds cpuid fs icacheSize dcacheSize = some (cfg,
    (iTune, dTune)) ∧ (∃ cache, cfg.caches[iTune]? = some cache ∧ IsICache cache.key) ∧
    (∃ cache, cfg.caches[dTune]? = some cache ∧ IsDCache cache.key) ∧ cfg.caches.length ≤ maxCaches

/-- The cache that `cfg_cacheAdd` is told of, if it takes it at all. -/
def CacheArgs.key? (args : CacheArgs) : Option (ℕ × ℕ × ℕ) :=
  if 3 < args.level ∨ args.kb = 0 then none else some (args.level, args.type, args.kb)

/-- The caches that the files name. -/
def fileCaches (fs : SysFs) : List CacheArgs :=
  (cpusOf ((fs.cpu.getD []).foldl vfsConfigCpuDir .cleared)).flatMap fun cpu ↦
    ((fs.cache cpu).getD []).filterMap (indexArgs fs cpu)

/-- The caches that are named, in order. -/
def namedCaches (cpuid : List CacheArgs) (fs : SysFs) (icacheSize dcacheSize : ℕ) :
    List (ℕ × ℕ × ℕ) :=
  (if icacheSize = 0 then [] else [(1, 73, icacheSize)]) ++ (if dcacheSize = 0 then []
    else [(1, 68, dcacheSize)]) ++
    if icacheSize = 0 ∨ dcacheSize = 0 then
      (cpuid ++ fileCaches fs).filterMap CacheArgs.key? ++
        [(1, 73, genericIcache), (1, 68, genericDcache)]
    else []

def NamedInTime (Kind : ℕ × ℕ × ℕ → Prop) (named : List (ℕ × ℕ × ℕ)) : Prop :=
  ∃ before key after, named = before ++ key :: after ∧ Kind key ∧ before.toFinset.card < maxCaches

def masksOf (key : List UInt8) (lines : List (List UInt8)) : List (List UInt8) :=
  (lines.filterMap statusField).filterMap fun field ↦ if field.1 = key then some field.2 else none

structure FilesHarmless (fs : SysFs) : Prop where
  allowed : MasksFit (masksOf cpusAllowed (fileLines fs.status))
  mems : MasksFit (masksOf memsAllowed (fileLines fs.status))
  online : ∀ line ∈ (fileLines fs.online).head?, RangesEnd line

/-! ### The table is bounded -/

variable {cfg : HostCfg} {fs : SysFs} {caches : List CacheInst} {rounds icacheSize dcacheSize : ℕ}
    {cpuid : List CacheArgs}

def HostCfg.keys (cfg : HostCfg) : List (ℕ × ℕ × ℕ) := cfg.caches.map CacheInst.key

theorem keys_cfgCacheAdd (cfg : HostCfg) (args : CacheArgs) :
    (cfgCacheAdd cfg args).keys = args.key?.toList.foldl (insertBounded maxCaches) cfg.keys := by
  unfold cfgCacheAdd CacheArgs.key?
  split_ifs with hrefused
  · rfl
  dsimp only [Option.toList_some, List.foldl_cons, List.foldl_nil]
  set i := cfg.caches.findIdx fun cache ↦ cache.level = args.level ∧ cache.type = args.type ∧
    cache.size = args.kb with hi
  have hfound : i < cfg.caches.length ↔ (args.level, args.type, args.kb) ∈ cfg.keys := by
    rw [hi, List.findIdx_lt_length]
    simp [HostCfg.keys, CacheInst.key]
  have hlength : cfg.keys.length = cfg.caches.length := List.length_map ..
  unfold insertBounded
  by_cases hmem : (args.level, args.type, args.kb) ∈ cfg.keys
  · rw [if_pos hmem, if_pos (hfound.mpr hmem)]
    split_ifs with hfull
    · rfl
    · exact Foundation.map_modify_of_comp CacheInst.key
        (fun cache ↦ { cache with cpuMap := addToMap cfg.pCacheInfo args cache.cpuMap })
          (fun _ ↦ rfl) cfg.caches i
  · have hend : i = cfg.caches.length :=
      Nat.le_antisymm List.findIdx_le_length (Nat.not_lt.mp fun h ↦ hmem (hfound.mp h))
    rw [if_neg hmem, hlength, hend, if_neg (Nat.lt_irrefl _)]
    split_ifs with hfull hroom hroom
    · omega
    · rfl
    · exact List.map_append ..
    · omega

theorem keys_foldl_cfgCacheAdd (calls : List CacheArgs) (cfg : HostCfg) :
    (calls.foldl cfgCacheAdd cfg).keys =
      (calls.filterMap CacheArgs.key?).foldl (insertBounded maxCaches) cfg.keys := by
  induction calls generalizing cfg with
  | nil => rfl
  | cons args calls ih =>
    rw [List.foldl_cons, ih, keys_cfgCacheAdd, List.filterMap_cons]
    cases args.key? <;> rfl

def HostCfg.Untouched (cfg : HostCfg) : Prop :=
  cfg.pAllowed = .cleared ∧ cfg.mAllowed = .cleared ∧ cfg.pCacheInfo = .cleared

theorem untouched_foldl_cfgCacheAdd (calls : List CacheArgs) (h : cfg.Untouched) :
    (calls.foldl cfgCacheAdd cfg).Untouched := by
  induction calls generalizing cfg with
  | nil => exact h
  | cons args calls ih =>
    refine ih ?_
    unfold cfgCacheAdd
    dsimp only
    split_ifs <;> exact h

/-! ### The files -/

variable {lines : List (List UInt8)}

theorem masksOf_cons {key line : List UInt8} : masksOf key (line :: lines) =
    match statusField line with
    | none => masksOf key lines
    | some field => if field.1 = key then field.2 :: masksOf key lines else masksOf key lines := by
  unfold masksOf
  rw [List.filterMap_cons]
  cases statusField line with
  | none => rfl
  | some field =>
    rw [List.filterMap_cons]
    by_cases hkey : field.1 = key <;> simp [hkey]

theorem foldlM_vfsConfigStatus (lines : List (List UInt8)) (cfg : HostCfg) :
    lines.foldlM vfsConfigStatus cfg =
    ((masksOf cpusAllowed lines).foldlM vfsParseMask cfg.pAllowed).bind fun pAllowed ↦
      ((masksOf memsAllowed lines).foldlM vfsParseMask cfg.mAllowed).map fun mAllowed ↦
        { cfg with pAllowed := pAllowed, mAllowed := mAllowed } := by
  induction lines generalizing cfg with
  | nil => rfl
  | cons line lines ih =>
    have hkeys : cpusAllowed ≠ memsAllowed := by decide
    rw [List.foldlM_cons, masksOf_cons, masksOf_cons]
    unfold vfsConfigStatus
    cases hfield : statusField line with
    | none => exact ih cfg
    | some field =>
      dsimp only
      split_ifs with hcpus hmems hmems
      · exact absurd (hcpus.symm.trans hmems) hkeys
      · rw [List.foldlM_cons]
        cases hparse : vfsParseMask cfg.pAllowed field.2 with
        | none => rfl
        | some map => exact ih _
      · rw [List.foldlM_cons]
        cases hparse : vfsParseMask cfg.mAllowed field.2 with
        | none => cases (masksOf cpusAllowed lines).foldlM vfsParseMask cfg.pAllowed <;> rfl
        | some map => exact ih _
      · exact ih cfg

/-- The status file is read without harm exactly if its masks fit, and does not change the caches.
-/
theorem status_spec (h : cfg.Untouched) (lines : List (List UInt8)) :
    ((∃ next, lines.foldlM vfsConfigStatus cfg = some next) ↔
        MasksFit (masksOf cpusAllowed lines) ∧ MasksFit (masksOf memsAllowed lines)) ∧
      ∀ next, lines.foldlM vfsConfigStatus cfg = some next → next.keys = cfg.keys ∧
      next.pCacheInfo = cfg.pCacheInfo := by
  have hfit : ∀ {map : TopoMap} {values : List (List UInt8)}, map.msw = 0 →
      ((∃ next, values.foldlM vfsParseMask map = some next) ↔ MasksFit values) := by
    intro map values hzero
    rw [← Option.isSome_iff_exists, isSome_foldlM_vfsParseMask (by omega)]
    exact and_iff_left fun h ↦ absurd h (by omega)
  rw [foldlM_vfsConfigStatus, ← hfit (congrArg TopoMap.msw h.1),
    ← hfit (congrArg TopoMap.msw h.2.1)]
  cases (masksOf cpusAllowed lines).foldlM vfsParseMask cfg.pAllowed with
  | none => simp
  | some pAllowed =>
    cases (masksOf memsAllowed lines).foldlM vfsParseMask cfg.mAllowed with
    | none => simp
    | some mAllowed => exact ⟨by simp, fun next hnext ↦ by cases hnext; exact ⟨rfl, rfl⟩⟩

theorem online_of_eq_some {last : HostCfg} (hlast : vfsConfigOnline rounds cfg lines = some last) :
    (∀ line ∈ lines.head?, RangesEnd line) ∧ last.keys = cfg.keys ∧
      last.pCacheInfo = cfg.pCacheInfo := by
  cases lines with
  | nil =>
    cases hlast
    exact ⟨nofun, rfl, rfl⟩
  | cons line lines =>
    obtain ⟨map, hmap, rfl⟩ := Option.map_eq_some_iff.mp hlast
    refine ⟨fun first hfirst ↦ ?_, rfl, rfl⟩
    rw [← Option.some.inj hfirst]
    exact rangesEnd_of_isSome (Option.isSome_of_eq_some hmap)

theorem exists_online (hends : ∀ line ∈ lines.head?, RangesEnd line) (cfg : HostCfg) :
    ∃ last, vfsConfigOnline (2 ^ 33 + 1) cfg lines = some last := by
  cases lines with
  | nil => exact ⟨cfg, rfl⟩
  | cons line lines =>
    obtain ⟨map, hmap⟩ :=
      Option.isSome_iff_exists.mp (isSome_vfsParseList (hends line rfl) cfg.pOnline)
    exact ⟨_, Option.map_eq_some_iff.mpr ⟨map, hmap, rfl⟩⟩

theorem foldl_vfsConfigInfoCache (cpus : List ℕ) (cfg : HostCfg) :
    cpus.foldl (fun cfg cpu ↦ ((fs.cache cpu).getD []).foldl (vfsConfigInfoCache fs cpu) cfg) cfg =
      (cpus.flatMap fun cpu ↦ ((fs.cache cpu).getD []).filterMap (indexArgs fs cpu)).foldl
      cfgCacheAdd cfg := by
  rw [List.foldl_flatMap]
  congr 1
  funext cfg cpu
  rw [List.foldl_filterMap]
  congr 1
  funext cfg name
  unfold vfsConfigInfoCache
  cases indexArgs fs cpu name <;> rfl

theorem vfsConfig_eq (rounds : ℕ) (fs : SysFs) (cfg : HostCfg) : vfsConfig rounds fs cfg =
    ((fileLines fs.status).foldlM vfsConfigStatus cfg).bind fun cfg ↦
      (vfsConfigOnline rounds cfg (fileLines fs.online)).bind fun cfg ↦
        some <| ((cpusOf ((fs.cpu.getD []).foldl vfsConfigCpuDir cfg.pCacheInfo)).flatMap fun cpu ↦
          ((fs.cache cpu).getD []).filterMap (indexArgs fs cpu)).foldl cfgCacheAdd
            { cfg with pCacheInfo := (fs.cpu.getD []).foldl vfsConfigCpuDir cfg.pCacheInfo } := by
  unfold vfsConfig
  simp only [foldl_vfsConfigInfoCache]
  rfl

theorem vfsConfig_spec (h : cfg.Untouched) :
    ((∃ rounds, (vfsConfig rounds fs cfg).isSome) ↔ FilesHarmless fs) ∧
      ∀ rounds next, vfsConfig rounds fs cfg = some next →
        next.keys =
        ((fileCaches fs).filterMap CacheArgs.key?).foldl (insertBounded maxCaches) cfg.keys := by
  obtain ⟨hstatus, hframe⟩ := status_spec h (fileLines fs.status)
  simp only [vfsConfig_eq]
  refine ⟨⟨?_, ?_⟩, ?_⟩
  · rintro ⟨rounds, hsome⟩
    obtain ⟨result, hresult⟩ := Option.isSome_iff_exists.mp hsome
    obtain ⟨read, hread, hresult⟩ := Option.bind_eq_some_iff.mp hresult
    obtain ⟨last, hlast, -⟩ := Option.bind_eq_some_iff.mp hresult
    obtain ⟨hallowed, hmems⟩ := hstatus.mp ⟨read, hread⟩
    exact ⟨hallowed, hmems, (online_of_eq_some hlast).1⟩
  · rintro ⟨hallowed, hmems, honline⟩
    obtain ⟨read, hread⟩ := hstatus.mpr ⟨hallowed, hmems⟩
    obtain ⟨last, hlast⟩ := exists_online honline read
    exact ⟨2 ^ 33 + 1, by rw [hread, Option.bind_some, hlast]; rfl⟩
  · intro rounds result hresult
    obtain ⟨read, hread, hresult⟩ := Option.bind_eq_some_iff.mp hresult
    obtain ⟨last, hlast, heq⟩ := Option.bind_eq_some_iff.mp hresult
    obtain ⟨hkeys, hsame⟩ := hframe read hread
    obtain ⟨-, hkeys', hsame'⟩ := online_of_eq_some hlast
    have hnamed : fileCaches fs =
      (cpusOf ((fs.cpu.getD []).foldl vfsConfigCpuDir last.pCacheInfo)).flatMap fun cpu ↦
        ((fs.cache cpu).getD []).filterMap (indexArgs fs cpu) := by
      rw [hsame', hsame, h.2.2]
      rfl
    rw [← Option.some.inj heq, ← hnamed, keys_foldl_cfgCacheAdd, ← hkeys, ← hkeys']
    rfl

/-! ### The choice is made -/

def Chosen (Kind : ℕ × ℕ × ℕ → Prop) (caches : List CacheInst) (n tune : ℕ) : Prop :=
  (tune = maxCaches + 2 ∧ ∀ i < n, ∀ cache, caches[i]? = some cache → ¬Kind cache.key) ∨
    ∃ cache, caches[tune]? = some cache ∧ Kind cache.key

variable {Kind : ℕ × ℕ × ℕ → Prop}

theorem Chosen.succ {n tune : ℕ} (h : Chosen Kind caches n tune)
    (hnot : ∀ cache, caches[n]? = some cache → ¬Kind cache.key) :
    Chosen Kind caches (n + 1) tune := by
  rcases h with ⟨htune, hnone⟩ | hfound
  · refine .inl ⟨htune, fun i hi ↦ ?_⟩
    rcases Nat.lt_succ_iff_lt_or_eq.mp hi with hless | rfl
    · exact hnone i hless
    · exact hnot
  · exact .inr hfound

theorem Chosen.round [DecidablePred Kind] {n tune : ℕ} (h : Chosen Kind caches n tune)
    (hn : n < maxCaches) {cache : CacheInst} (hcache : caches[n]? = some cache) :
    Chosen Kind caches (n + 1) (if Kind cache.key then if n < tune then n else tune else tune) := by
  split_ifs with hkind hless
  · exact .inr ⟨cache, hcache, hkind⟩
  · exact .inr (h.resolve_left fun ⟨htune, _⟩ ↦ by omega)
  · refine h.succ fun other hother ↦ ?_
    rwa [← Option.some.inj (hcache.symm.trans hother)]

theorem tuneRound_of_some {cache : CacheInst} {i : ℕ} (tune : ℕ × ℕ)
    (hcache : caches[i]? = some cache) : tuneRound caches tune i =
      (if IsICache cache.key then if i < tune.1 then i else tune.1 else tune.1,
        if IsDCache cache.key then if i < tune.2 then i else tune.2 else tune.2) := by
  unfold tuneRound IsICache IsDCache CacheInst.key
  rw [hcache]
  grind

theorem chosen_tune (caches : List CacheInst) {n : ℕ} (hn : n ≤ maxCaches) :
    Chosen IsICache caches n
      ((List.range n).foldl (tuneRound caches) (maxCaches + 2, maxCaches + 2)).1 ∧
      Chosen IsDCache caches n
      ((List.range n).foldl (tuneRound caches) (maxCaches + 2, maxCaches + 2)).2 := by
  induction n with
  | zero => exact ⟨.inl ⟨rfl, by simp⟩, .inl ⟨rfl, by simp⟩⟩
  | succ n ih =>
    obtain ⟨hicache, hdcache⟩ := ih (Nat.le_of_succ_le hn)
    rw [List.range_succ, List.foldl_append, List.foldl_cons, List.foldl_nil]
    generalize (List.range n).foldl (tuneRound caches) (maxCaches + 2, maxCaches + 2) =
      tune at hicache hdcache
    cases hcache : caches[n]? with
    | none =>
      have hsame : tuneRound caches tune n = tune := by
        unfold tuneRound
        rw [hcache]
      rw [hsame]
      exact ⟨hicache.succ (by simp [hcache]), hdcache.succ (by simp [hcache])⟩
    | some cache =>
      rw [tuneRound_of_some tune hcache]
      exact ⟨hicache.round hn hcache, hdcache.round hn hcache⟩

theorem Chosen.iff {tune : ℕ} (h : Chosen Kind caches caches.length tune) :
    (∃ cache, caches[tune]? = some cache ∧ Kind cache.key) ↔ ∃ key ∈ caches.map CacheInst.key,
      Kind key := by
  constructor
  · rintro ⟨cache, hcache, hkind⟩
    exact ⟨cache.key, List.mem_map_of_mem (List.mem_of_getElem? hcache), hkind⟩
  · rintro ⟨key, hkey, hkind⟩
    obtain ⟨cache, hmem, rfl⟩ := List.mem_map.mp hkey
    obtain ⟨i, hi, hcache⟩ := List.getElem_of_mem hmem
    refine h.resolve_left fun ⟨_, hnone⟩ ↦ hnone i hi cache ?_ hkind
    rw [List.getElem?_eq_getElem hi, hcache]

theorem namedInTime_iff {named : List (ℕ × ℕ × ℕ)} :
    NamedInTime Kind named ↔ ∃ key ∈ boundedTable maxCaches named, Kind key := by
  simp only [Foundation.mem_boundedTable_iff]
  exact ⟨fun ⟨before, key, after, hnamed, hkind, hroom⟩ ↦
    ⟨key, ⟨before, after, hnamed, hroom⟩, hkind⟩,
    fun ⟨key, ⟨before, after, hnamed, hroom⟩, hkind⟩ ↦ ⟨before, key, after, hnamed, hkind, hroom⟩⟩

theorem exists_paramCalls (icacheSize dcacheSize : ℕ) : ∃ calls : List CacheArgs,
    calls.foldl cfgCacheAdd .cleared =
      (if dcacheSize ≠ 0 then
        cfgCacheAdd (if icacheSize ≠ 0 then cfgCacheAdd .cleared ⟨srcParam, none, 1, 73, icacheSize⟩
        else .cleared)
          ⟨srcParam, none, 1, 68, dcacheSize⟩
      else if icacheSize ≠ 0 then cfgCacheAdd .cleared ⟨srcParam, none, 1, 73, icacheSize⟩
      else .cleared) ∧
    calls.filterMap CacheArgs.key? =
      (if icacheSize = 0 then [] else [(1, 73, icacheSize)]) ++ if dcacheSize = 0 then
      [] else [(1, 68, dcacheSize)] := by
  refine ⟨(if icacheSize = 0 then [] else [⟨srcParam, none, 1, 73, icacheSize⟩]) ++
    if dcacheSize = 0 then [] else [⟨srcParam, none, 1, 68, dcacheSize⟩], ?_⟩
  by_cases hi : icacheSize = 0 <;> by_cases hd : dcacheSize = 0 <;> simp [hi, hd, CacheArgs.key?]

theorem collectCaches_spec (cpuid : List CacheArgs) (fs : SysFs) (icacheSize dcacheSize : ℕ) :
    ((∃ rounds, (collectCaches rounds cpuid fs icacheSize dcacheSize).isSome) ↔
      (icacheSize = 0 ∨ dcacheSize = 0 → FilesHarmless fs)) ∧
      ∀ rounds cfg, collectCaches rounds cpuid fs icacheSize dcacheSize = some cfg →
        cfg.keys = boundedTable maxCaches (namedCaches cpuid fs icacheSize dcacheSize) := by
  obtain ⟨calls, hcalls, hnamed⟩ := exists_paramCalls icacheSize dcacheSize
  have huntouched : (calls.foldl cfgCacheAdd .cleared).Untouched :=
    untouched_foldl_cfgCacheAdd calls ⟨rfl, rfl, rfl⟩
  have hkeys := keys_foldl_cfgCacheAdd calls .cleared
  unfold collectCaches namedCaches boundedTable
  dsimp only
  rw [← hcalls, ← hnamed, List.foldl_append]
  by_cases hfiles : icacheSize = 0 ∨ dcacheSize = 0
  · obtain ⟨hiff, hread⟩ := @vfsConfig_spec _ fs (untouched_foldl_cfgCacheAdd cpuid huntouched)
    simp only [if_pos hfiles]
    refine ⟨?_, fun rounds result hresult ↦ ?_⟩
    · rw [forall_prop_of_true hfiles, ← hiff]
      refine exists_congr fun rounds ↦ ?_
      cases vfsConfig rounds fs (cpuid.foldl cfgCacheAdd (calls.foldl cfgCacheAdd .cleared)) <;> rfl
    · obtain ⟨next, hnext, heq⟩ := Option.bind_eq_some_iff.mp hresult
      rw [← Option.some.inj heq, keys_cfgCacheAdd, keys_cfgCacheAdd, hread rounds next hnext,
        keys_foldl_cfgCacheAdd cpuid,
        hkeys, List.filterMap_append, List.foldl_append, List.foldl_append]
      rfl
  · simp only [if_neg hfiles]
    exact ⟨⟨fun _ h ↦ absurd h hfiles, fun _ ↦ ⟨0, rfl⟩⟩, fun _ _ hresult ↦
      Option.some.inj hresult ▸ hkeys⟩

/-- For every content of the files and all options. -/
theorem tuned_iff (cpuid : List CacheArgs) (fs : SysFs) (icacheSize dcacheSize : ℕ) :
    Tuned cpuid fs icacheSize dcacheSize ↔
      (icacheSize = 0 ∨ dcacheSize = 0 → FilesHarmless fs) ∧
        NamedInTime IsICache (namedCaches cpuid fs icacheSize dcacheSize) ∧
          NamedInTime IsDCache (namedCaches cpuid fs icacheSize dcacheSize) := by
  obtain ⟨hharmless, hkeys⟩ := collectCaches_spec cpuid fs icacheSize dcacheSize
  have hfound : ∀ rounds cfg, collectCaches rounds cpuid fs icacheSize dcacheSize = some cfg →
      cfg.caches.length ≤ maxCaches ∧
      ((∃ cache, cfg.caches[((List.range cfg.caches.length).foldl (tuneRound cfg.caches)
        (maxCaches + 2, maxCaches + 2)).1]? = some cache ∧ IsICache cache.key) ↔
          NamedInTime IsICache (namedCaches cpuid fs icacheSize dcacheSize)) ∧
      ((∃ cache, cfg.caches[((List.range cfg.caches.length).foldl (tuneRound cfg.caches)
        (maxCaches + 2, maxCaches + 2)).2]? = some cache ∧ IsDCache cache.key) ↔
          NamedInTime IsDCache (namedCaches cpuid fs icacheSize dcacheSize)) := by
    intro rounds cfg hcfg
    have hkeys := hkeys rounds cfg hcfg
    have hsize : cfg.caches.length ≤ maxCaches := by
      have hlength :=
        Foundation.length_boundedTable_le maxCaches (namedCaches cpuid fs icacheSize dcacheSize)
      rwa [← hkeys, HostCfg.keys, List.length_map] at hlength
    obtain ⟨hicache, hdcache⟩ := chosen_tune cfg.caches hsize
    rw [namedInTime_iff, namedInTime_iff, ← hkeys]
    exact ⟨hsize, hicache.iff, hdcache.iff⟩
  rw [← hharmless]
  constructor
  · rintro ⟨rounds, cfg, iTune, dTune, hresult, hicache, hdcache, -⟩
    obtain ⟨cfg', hcfg, heq⟩ := Option.map_eq_some_iff.mp hresult
    obtain ⟨rfl, htune⟩ := Prod.mk.inj heq
    obtain ⟨-, hiff, hiff'⟩ := hfound rounds cfg' hcfg
    rw [htune] at hiff hiff'
    exact ⟨⟨rounds, by rw [hcfg]; rfl⟩, hiff.mp hicache, hiff'.mp hdcache⟩
  · rintro ⟨⟨rounds, hsome⟩, hicache, hdcache⟩
    obtain ⟨cfg, hcfg⟩ := Option.isSome_iff_exists.mp hsome
    obtain ⟨hsize, hiff, hiff'⟩ := hfound rounds cfg hcfg
    exact ⟨rounds, cfg, _, _, Option.map_eq_some_iff.mpr ⟨cfg, hcfg, rfl⟩, hiff.mpr hicache,
      hiff'.mpr hdcache, hsize⟩

/-- A processor with eight unified caches of level two. -/
def crowdedSysFs : SysFs where
  status := none
  online := none
  cpu := some [[99, 112, 117, 48]]
  cache := fun cpu ↦ if cpu =
    0 then some ((List.range 8).map fun i ↦ [105, 110, 100, 101, 120, 48 + UInt8.ofNat i]) else none
  file := fun _ idx file ↦ match file with
    | .level => some [50, 10]
    | .type => some [85, 110, 105, 102, 105, 101, 100, 10]
    | .size => some [49 + UInt8.ofNat idx.toNat, 75, 10]

/-- There is no room for the defaults, and what is chosen is behind the table. -/
theorem not_tuned_crowded : ¬ Tuned [] crowdedSysFs 0 0 := by
  rintro ⟨rounds, cfg, iTune, dTune, hresult, ⟨cache, hcache, -⟩, -⟩
  have hchosen : (havegeTune rounds [] crowdedSysFs 0 0).map (fun r ↦ (r.2.1, r.1.caches.length)) =
    some (10, 8) := by
    rfl
  rw [hresult] at hchosen
  obtain ⟨rfl, hlength⟩ := Prod.mk.inj (Option.some.inj hchosen)
  obtain ⟨hlt, -⟩ := List.getElem?_eq_some_iff.mp hcache
  dsimp only at hlength
  omega

end CrossBreeder.Haveged
