import CrossBreeder.Foundation.TextFields

/-!
# The output buffer of haveged

`main` allocates one buffer, `io_buf`, before it runs as a daemon or as an application. Its size
comes from the size of the entropy pool or is a constant; the number of words that are then
requested comes from the option `-b` and from the entropy count of the kernel. Requests fit if and
only if `FitsSetup` holds (`requests_fit_iff`); an application started with `-b 2` asks for more
than there is (`bufferOption_overflow`).
-/

namespace CrossBreeder.Haveged

open Foundation

/-! ### Options and files -/

/-- `APP_BUFF_SIZE`, in words. -/
def appBuffSize : ℕ := 1024

/-- `sizeof(H_UINT)`. -/
def wordSize : ℕ := 4

/-- `sizeof(struct rand_pool_info)`. -/
def poolInfoSize : ℕ := 8

/-- `params->buffersz` for the argument of `-b`, if there is one, `none` where `main` exits. -/
def acceptBuffer (long : ℕ) : Option (List UInt8) → Option ℕ
  | none => some 64
  | some optarg =>
    let buffersz := unsignedInt (atoi long optarg) * 1024 % 2 ^ 32
    if buffersz < 4 then none else some buffersz

/-- The version in the file `osrelease`: `%d.%d`, zeroes if it cannot be read. -/
def osVersion (long : ℕ) (text : List UInt8) : ℤ × ℤ :=
  match scanDecimal long text with
  | none => (0, 0)
  | some (major, rest) =>
    match rest with
    | 46 :: rest => ((scanDecimal long rest).map fun minor ↦ (major, minor.1)).getD (0, 0)
    | _ => (0, 0)

/-- `max_bits` of `get_poolsize`, with the contents of the two files that can be opened. -/
def maxBits (long : ℕ) (poolsize osRel : Option (List UInt8)) : ℕ :=
  match poolsize with
  | none => unsignedInt (-1)
  | some text =>
    let bits := ((scanDecimal long text).map fun bits ↦ unsignedInt bits.1).getD (unsignedInt (-1))
    if osRel.map (osVersion long) = some (2, 4) then bits * 8 % 2 ^ 32 else bits

/-- `get_poolsize`, `none` where it exits. -/
def getPoolsize (long : ℕ) (poolsize osRel : Option (List UInt8)) : Option ℕ :=
  if maxBits long poolsize osRel < 1 then none else some (maxBits long poolsize osRel)

/-! ### What is allocated and what is requested -/

/-- How haveged was started: as an application with a number of buffers and a rest, or as a daemon.
-/
inductive Mode
  | app (bufct bufres : ℕ)
  | daemon (poolSize : ℕ)

/-- `cmd.ioSz`, in bytes. -/
def ioSz : Mode → ℕ
  | .app _ _ => appBuffSize * wordSize
  | .daemon poolSize =>
    let i := narrowInt ((poolSize + 7) % 2 ^ 32 / 8 * wordSize : ℕ)
    unsignedInt (poolInfoSize + i * wordSize)

/-- `nbytes` of `run_daemon`: the bytes that fill the pool, for the entropy count of the kernel. -/
def fillBytes (poolSize : ℕ) (current : ℤ) :
    ℤ := narrowInt (unsignedInt (poolSize - current) / 8 : ℕ)

/-- The words that `run_daemon` requests, if any. -/
def daemonWords (poolSize : ℕ) (current : ℤ) : Option ℕ :=
  let nbytes := fillBytes poolSize current
  if nbytes < 1 then none else some ((nbytes.toNat + wordSize - 1) / wordSize)

/-- The words that the loop of `run_app` requests, for a random number. -/
def appWords (buffersz rand : ℕ) : ℕ := rand % buffersz

/-- The words that `run_app` requests for the rest. -/
def restWords (bufres : ℕ) : ℕ := (bufres + wordSize - 1) / wordSize

def randMax : ℕ := 2 ^ 31 - 1

/-- How haveged was started, with the bits of a `long` and the values that `main`, `get_runsize` and
`get_poolsize` accept. -/
structure Setup where
  long : ℕ
  optarg : Option (List UInt8)
  poolsize : Option (List UInt8)
  osRel : Option (List UInt8)
  buffersz : ℕ
  mode : Mode
  buffer : acceptBuffer long optarg = some buffersz
  pool : ∀ bits, mode = .daemon bits → getPoolsize long poolsize osRel = some bits
  residue : ∀ bufct bufres, mode = .app bufct bufres → bufres < appBuffSize * wordSize

/-- A request of a run: its words, and the words of `io_buf` it may use. The kernel returns one of
some counts. -/
inductive Request (setup : Setup) (counts : ℤ → Prop) : ℕ → ℕ → Prop
  | loop {bufct bufres rand : ℕ} (hmode : setup.mode = .app bufct bufres)
    (hloop : bufct ≠ 0 ∨ bufres = 0)
      (hrand : rand ≤ randMax) :
        Request setup counts (appWords setup.buffersz rand) (ioSz setup.mode / wordSize)
  | rest {bufct bufres : ℕ} (hmode : setup.mode = .app bufct bufres) :
      Request setup counts (restWords bufres) (ioSz setup.mode / wordSize)
  | fill {bits words : ℕ} {current : ℤ} (hmode : setup.mode = .daemon bits) (hcurrent :
    counts current)
      (hwords : daemonWords bits current = some words) :
      Request setup counts words ((ioSz setup.mode - poolInfoSize) / wordSize)
  -- the kernel refuses the entropy, and `run_app` is called without limits
  | fallBack {bits rand : ℕ} (hmode : setup.mode = .daemon bits) (hrand : rand ≤ randMax) :
      Request setup counts (appWords setup.buffersz rand) (ioSz setup.mode / wordSize)

/-! ### When the requests fit -/

/-- The words of the buffer behind the header, divided by four: the eighth part of the pool size,
rounded up, as far as the arithmetic of 32 bits keeps it. -/
def poolEighth (poolSize : ℕ) : ℕ := (poolSize + 7) % 2 ^ 32 / 8 % 2 ^ 28

theorem ioSz_daemon (poolSize : ℕ) :
    ioSz (.daemon poolSize) = poolInfoSize + 16 * poolEighth poolSize := by
  unfold ioSz poolEighth narrowInt unsignedInt poolInfoSize wordSize
  dsimp only
  rw [Int.bmod_def]
  split_ifs <;> omega

theorem fillBytes_eq (poolSize : ℕ) (current : ℤ) : fillBytes poolSize current =
    (unsignedInt (poolSize - current) / 8 : ℕ) := by
  have hlt := unsignedInt_lt (poolSize - current)
  unfold fillBytes narrowInt
  rw [Int.bmod_def]
  split_ifs <;> omega

theorem daemonWords_le_iff {poolSize words : ℕ} {current : ℤ}
    (hwords : daemonWords poolSize current = some words) :
    words ≤ (ioSz (.daemon poolSize) - poolInfoSize) / wordSize ↔
      unsignedInt (poolSize - current) / 8 ≤ 16 * poolEighth poolSize := by
  unfold daemonWords at hwords
  dsimp only at hwords
  split_ifs at hwords
  obtain rfl := Option.some.inj hwords
  rw [ioSz_daemon, fillBytes_eq, Int.toNat_natCast]
  unfold wordSize
  omega

/-- Every remainder below the divisor is one of a random number, unless the divisor is very large.
-/
theorem appWords_le_iff (buffersz : ℕ) {room : ℕ} (hroom : room < randMax) :
    (∀ rand ≤ randMax, appWords buffersz rand ≤ room) ↔ 0 < buffersz ∧ buffersz ≤ room + 1 := by
  unfold appWords
  constructor
  · intro hall
    have hone := hall (room + 1) (by omega)
    by_contra hlarge
    by_cases hzero : buffersz = 0
    · rw [hzero, Nat.mod_zero] at hone
      omega
    · rw [Nat.mod_eq_of_lt (by omega)] at hone
      omega
  · rintro ⟨hpos, hle⟩ rand -
    have hlt := Nat.mod_lt rand hpos
    omega

/-- The condition on the options, the pool size and the counts of the kernel. -/
def FitsSetup (setup : Setup) (counts : ℤ → Prop) : Prop :=
  match setup.mode with
  | .app bufct bufres => bufct ≠ 0 ∨ bufres = 0 → setup.buffersz ≤ appBuffSize + 1
  | .daemon bits =>
    (∀ current, counts current → unsignedInt (bits - current) / 8 ≤ 16 * poolEighth bits) ∧
      setup.buffersz ≤ 4 * poolEighth bits + 3

/-- Every request of every run fits the buffer if and only if the setup does. -/
theorem requests_fit_iff (setup : Setup) (counts : ℤ → Prop) :
    (∀ words room, Request setup counts words room → words ≤ room) ↔ FitsSetup setup counts := by
  have hpositive : 0 < setup.buffersz := by
    have hbuffer := setup.buffer
    cases hoptarg : setup.optarg with
    | none =>
      rw [hoptarg] at hbuffer
      exact Option.some.inj hbuffer ▸ by decide
    | some text =>
      rw [hoptarg] at hbuffer
      unfold acceptBuffer at hbuffer
      dsimp only at hbuffer
      split_ifs at hbuffer
      have heq := Option.some.inj hbuffer
      omega
  unfold FitsSetup
  cases hmode : setup.mode with
  | app bufct bufres =>
    have hroom : ioSz setup.mode / wordSize = appBuffSize := by simp [hmode, ioSz, wordSize]
    have hwords := appWords_le_iff setup.buffersz (show appBuffSize < randMax by decide)
    constructor
    · intro hfits hloop
      exact (hwords.mp fun rand hrand ↦ hroom ▸ hfits _ _ (.loop hmode hloop hrand)).2
    · intro hsetup words room hrequest
      cases hrequest with
      | loop hmode' hloop hrand =>
        obtain ⟨rfl, rfl⟩ := Mode.app.inj (hmode.symm.trans hmode')
        rw [hroom]
        exact hwords.mpr ⟨hpositive, hsetup hloop⟩ _ hrand
      | rest hmode' =>
        obtain ⟨rfl, rfl⟩ := Mode.app.inj (hmode.symm.trans hmode')
        have hresidue := setup.residue _ _ hmode
        rw [hroom]
        unfold restWords
        unfold wordSize at hresidue ⊢
        omega
      | fill hmode' => exact absurd (hmode.symm.trans hmode') (by simp)
      | fallBack hmode' => exact absurd (hmode.symm.trans hmode') (by simp)
  | daemon bits =>
    have hroom : ioSz setup.mode / wordSize = 4 * poolEighth bits + 2 := by
      rw [hmode, ioSz_daemon]
      unfold poolInfoSize wordSize
      omega
    have hsmall : 4 * poolEighth bits + 2 < randMax := by
      unfold poolEighth randMax
      omega
    have hwords := appWords_le_iff setup.buffersz hsmall
    constructor
    · intro hfits
      refine ⟨fun current hcurrent ↦ ?_, ?_⟩
      · cases hrequest : daemonWords bits current with
        | none =>
          -- nothing is requested when the pool is almost full
          unfold daemonWords at hrequest
          dsimp only at hrequest
          split_ifs at hrequest with hnone
          rw [fillBytes_eq] at hnone
          omega
        | some words =>
          have hle := hfits words _ (.fill hmode hcurrent hrequest)
          rw [hmode] at hle
          exact (daemonWords_le_iff hrequest).mp hle
      · exact (hwords.mp fun rand hrand ↦ hroom ▸ hfits _ _ (.fallBack hmode hrand)).2
    · rintro ⟨hfill, hloop⟩ words room hrequest
      cases hrequest with
      | loop hmode' => exact absurd (hmode.symm.trans hmode') (by simp)
      | rest hmode' => exact absurd (hmode.symm.trans hmode') (by simp)
      | fill hmode' hcurrent hrequest =>
        obtain rfl := Mode.daemon.inj (hmode.symm.trans hmode')
        rw [hmode]
        exact (daemonWords_le_iff hrequest).mpr (hfill _ hcurrent)
      | fallBack hmode' hrand =>
        rw [hroom]
        exact hwords.mpr ⟨hpositive, hloop⟩ _ hrand

/-- `haveged -n 1m -b 2`. -/
def largeBuffer : Setup where
  long := 64
  optarg := some [50]
  poolsize := none
  osRel := none
  buffersz := 2048
  mode := .app 256 0
  buffer := by decide
  pool := by simp
  residue := by simp [appBuffSize, wordSize]

/-- A random number of 2047 makes the application ask for more words than the buffer has. -/
theorem bufferOption_overflow :
    ¬∀ (setup : Setup) (counts : ℤ → Prop) (words room : ℕ), Request setup counts words room →
      words ≤ room := by
  intro hclaim
  have hrequest : Request largeBuffer (fun _ ↦ False) (appWords 2048 2047)
    (ioSz (.app 256 0) / wordSize) :=
    .loop rfl (.inl (by decide)) (by decide)
  have hle := hclaim _ _ _ _ hrequest
  revert hle
  decide

end CrossBreeder.Haveged
