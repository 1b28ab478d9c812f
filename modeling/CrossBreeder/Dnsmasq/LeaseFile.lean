import CrossBreeder.Dnsmasq.HexFields
import CrossBreeder.Dnsmasq.LeaseNames

/-!
# The lease file

`lease_update_file` writes a line for every lease, and `lease_init` reads them again when the
program starts. The fields of a line are printed by `printf` and read by `scanf`, so that each of
them has to be a word. What the program writes for a lease is read as it was, unless the name of the
lease is empty, as that of a host `.lan` of the configuration, or longer than the buffer for it.
This is the program without DHCPv6.
-/

namespace CrossBreeder.Dnsmasq

open Foundation

/-! ### `lease_update_file` -/

def arphrdEther : ℕ := 1

/-- A number as `%.2x` prints it. -/
def hexByte (n : ℕ) : List UInt8 := if n < 16 then 48 :: numeral 16 n else numeral 16 n

/-- Octets with colons between them. -/
def colonHex : List UInt8 → List UInt8
  | [] => []
  | [byte] => hexByte byte.toNat
  | byte :: next :: rest => hexByte byte.toNat ++ 58 :: colonHex (next :: rest)

def inetNtop (addr : UInt32) : List UInt8 :=
  numeral 10 (addr.toNat / 2 ^ 24) ++ 46 :: (numeral 10 (addr.toNat / 2 ^ 16 % 256) ++
    46 :: (numeral 10 (addr.toNat / 2 ^ 8 % 256) ++ 46 :: numeral 10 (addr.toNat % 256)))

/-- The hardware address of a lease, with its type unless it is that of an ethernet. -/
def hwaddrText (lease : Lease) : List UInt8 :=
  (if lease.hwaddrType ≠ arphrdEther ∨ lease.hwaddrLen = 0 then hexByte lease.hwaddrType ++ [45]
    else []) ++ colonHex lease.hwaddr

/-- The identifier of a client. -/
def clidText (lease : Lease) : List UInt8 := match lease.clid with
  | some (first :: rest) => colonHex (first :: rest)
  | _ => [42]

def leaseLine (lease : Lease) : List UInt8 :=
  numeral 10 lease.expires ++ 32 :: (hwaddrText lease ++ 32 :: (inetNtop lease.addr ++
    32 :: (lease.hostname.getD [42] ++ 32 :: (clidText lease ++ [10]))))

def leaseUpdateFile (table : LeaseTable) : List UInt8 := (table.leases.map leaseLine).flatten

/-! ### `lease_init` -/

def splitDots : List UInt8 → List (List UInt8)
  | [] => [[]]
  | c :: rest =>
    if c = 46 then [] :: splitDots rest
    else match splitDots rest with
      | [] => [[c]]
      | part :: parts => (c :: part) :: parts

/-- A part of an address: digits without zeros in front. -/
def octetValue (text : List UInt8) : Option ℕ :=
  if text ≠ [] ∧ (text.all fun c ↦ digitValue c < 10) ∧ (text.head? = some 48 → text.length = 1) ∧
      digitsValue 10 text ≤ 255 then some (digitsValue 10 text)
  else none

/-- `inet_pton`, for IPv4. -/
def inetPton (text : List UInt8) : Option UInt32 := match splitDots text with
  | [a, b, c, d] => (octetValue a).bind fun a ↦ (octetValue b).bind fun b ↦
    (octetValue c).bind fun c ↦
    (octetValue d).map fun d ↦ UInt32.ofNat (((a * 256 + b) * 256 + c) * 256 + d)
  | _ => none

/-- The time of expiry in a file. A time before the epoch is over like any other. -/
def expiryOf (text : List UInt8) : ℕ := if strtol 64 text < 0 then 1 else (strtol 64 text).toNat

structure LeaseFields where
  expires : List UInt8
  hwaddr : List UInt8
  addr : UInt32
  hostname : List UInt8
  clid : List UInt8

/-- The fields of a line are read. -/
def scanLease (input : List UInt8) : Option (LeaseFields × List UInt8) :=
  (scanField 255 input).bind fun (expires, input) ↦ (scanField 255 input).bind fun (hwaddr, input) ↦
    (scanField 64 input).bind fun (addr, input) ↦ (scanField 255 input).bind fun (hostname, input) ↦
      (scanField 764 input).bind fun (clid, input) ↦ (inetPton addr).map fun addr ↦
        (⟨expires, hwaddr, addr, hostname, clid⟩, input)

/-- The identifier of a line. One that is wrong has a negative length, and no memory is allocated
for it. -/
def clidOf (text : List UInt8) : Option (List UInt8) :=
  if text = [42] then none else (parseHex 255 false text).map Prod.fst

/-- The type of a hardware address of a line, for which no type means an ethernet. -/
def hwTypeOf (type : ℕ) (hwaddr : List UInt8) :
    ℕ := if type = 0 ∧ hwaddr ≠ [] then arphrdEther else type

def restoreName (env : DhcpEnv) (table : LeaseTable) (lease : Lease) (hostname : List UInt8) :
    LeaseTable :=
  if hostname = [42] then table
  else table.setHostname env.byFqdn lease hostname false (env.getDomain lease.addr)

/-- A lease is made from the fields of a line. An address that is wrong is copied with a negative
length. -/
def storeLease (env : DhcpEnv) (table : LeaseTable) (fields : LeaseFields) : Option LeaseTable :=
  (table.allocate4 fields.addr).bind fun (table, lease) ↦
    (parseHex dhcpChaddrMax true fields.hwaddr).map fun (hwaddr, type) ↦
      let table := table.update lease.number fun lease ↦
        lease.setHwaddr hwaddr (hwTypeOf type hwaddr) (clidOf fields.clid)
      let table := restoreName env table lease fields.hostname
      table.update lease.number fun lease ↦ { lease with expires := expiryOf fields.expires }

/-- The loop of `lease_init`. -/
def readLeases (env : DhcpEnv) : ℕ → List UInt8 → LeaseTable → Option LeaseTable
  | 0, _, table => some table
  | fuel + 1, input, table => match scanLease input with
    | none => some table
    | some (fields, input) => (storeLease env table fields).bind (readLeases env fuel input)

/-- `lease_init`. Without a result the program has crashed. -/
def leaseInit (env : DhcpEnv) (dhcpMax now : ℕ) (file : List UInt8) : Option LeaseTable :=
  (readLeases env (file.length + 1) file (.empty dhcpMax)).map fun table ↦ table.prune none now

/-! ### Octets come back -/

variable {c : UInt8}

theorem digit_plain (hc : digitValue c < 16) :
    isHexEnd c = false ∧ isSpace c = false ∧ c ≠ 42 ∧ c ≠ 46 := by
  have hne : ∀ d : UInt8, digitValue d = 36 → c ≠ d := by
    rintro d hd rfl
    omega
  have hlow : ¬(9 ≤ c ∧ c ≤ 13) := by
    rintro ⟨hmin, hmax⟩
    rw [UInt8.le_iff_toNat_le] at hmin hmax
    have hvalue : digitValue c = 36 := by
      unfold digitValue
      rw [if_neg, if_neg, if_neg] <;> simp only [UInt8.le_iff_toNat_le] <;> simp at hmin hmax ⊢ <;>
        omega
    omega
  refine ⟨?_, ?_, hne 42 rfl, hne 46 rfl⟩
  · simp [isHexEnd, hne 58 rfl, hne 45 rfl, hne 32 rfl]
  · simp only [isSpace, hne 32 rfl, false_or, hlow, decide_false]

variable {n : ℕ}

theorem hexByte_eq (hn : n < 256) :
    hexByte n = [UInt8.ofNat (n / 16).digitChar.toNat, UInt8.ofNat (n % 16).digitChar.toNat] := by
  unfold hexByte numeral
  split_ifs with hsmall
  · rw [Nat.toDigits_of_lt_base hsmall, Nat.div_eq_of_lt hsmall, Nat.mod_eq_of_lt hsmall]
    rfl
  · rw [Nat.toDigits_of_base_le (by omega) (by omega), Nat.toDigits_of_lt_base (by omega)]
    rfl

theorem digitValue_of_mem_hexByte (hn : n < 256) (hc : c ∈ hexByte n) : digitValue c < 16 := by
  rw [hexByte_eq hn] at hc
  rcases List.mem_pair.mp hc with rfl | rfl
  · rw [digitValue_digitChar (by omega)]
    omega
  · rw [digitValue_digitChar (by omega)]
    omega

theorem readNumeral_hexByte (hn : n < 256) : readNumeral 16 (hexByte n) = n := by
  have htake : (hexByte n).takeWhile (fun c ↦ digitValue c < 16) = hexByte n :=
    List.takeWhile_eq_self_iff.mpr fun c hc ↦ decide_eq_true (digitValue_of_mem_hexByte hn hc)
  unfold readNumeral
  rw [htake, hexByte_eq hn]
  simp only [digitsValue, List.foldl_cons, List.foldl_nil]
  rw [digitValue_digitChar (by omega), digitValue_digitChar (by omega)]
  omega

theorem octets_hexByte (byte : UInt8) : octets (hexByte byte.toNat) = [byte] := by
  have hread := readNumeral_hexByte byte.toNat_lt
  rw [hexByte_eq byte.toNat_lt] at hread ⊢
  unfold octets
  rw [hread, UInt8.ofNat_toNat]
  rfl

theorem takeWhile_hexByte (hn : n < 256) {rest : List UInt8}
    (hrest : ∀ c ∈ rest.head?, isHexEnd c = true) :
    ((hexByte n ++ rest).takeWhile fun c ↦ !isHexEnd c) = hexByte n ∧
      ((hexByte n ++ rest).dropWhile fun c ↦ !isHexEnd c) = rest := by
  have hplain : ∀ c ∈ hexByte n, (!isHexEnd c) = true := fun c hc ↦ by
    rw [(digit_plain (digitValue_of_mem_hexByte hn hc)).1]
    rfl
  rw [List.takeWhile_append_of_pos hplain, List.dropWhile_append_of_pos hplain]
  cases rest with
  | nil => simp
  | cons c rest =>
    have hc : isHexEnd c = true := hrest c rfl
    rw [List.takeWhile_cons_of_neg
      (by simp [hc]), List.dropWhile_cons_of_neg (by simp [hc]), List.append_nil]
    exact ⟨rfl, rfl⟩

/-! ### The pieces of octets -/

theorem hexPieces_hexByte (hn : n < 256) : hexPieces (hexByte n) = [(hexByte n, none)] := by
  obtain ⟨htake, hdrop⟩ := @takeWhile_hexByte n hn [] (by simp)
  rw [List.append_nil] at htake hdrop
  rw [hexPieces_eq, htake, hdrop]
  rfl

theorem hexPieces_hexByte_append (hn : n < 256) (hc : isHexEnd c = true) (rest : List UInt8) :
    hexPieces (hexByte n ++ c :: rest) = (hexByte n, some c) :: hexPieces rest := by
  obtain ⟨htake, hdrop⟩ := @takeWhile_hexByte n hn (c :: rest) fun d hd ↦ Option.some.inj hd ▸ hc
  rw [hexPieces_eq, htake, hdrop]
  rfl

/-- An octet, or a type, is read in front of others. -/
theorem readPieces_hexByte (hn : n < 256) {maxlen : ℕ} {done : List (Option UInt8)}
    (hroom : done.length < maxlen) (last : Option UInt8) (rest : List (List UInt8 × Option UInt8))
    (macType : Bool) (type : ℕ) :
    readPieces (some maxlen) ((hexByte n, last) :: rest) done macType type =
      if last = some 45 ∧ done = [] ∧ macType then readPieces (some maxlen) rest done false n
      else readPieces (some maxlen) rest (done ++ [some (UInt8.ofNat n)]) macType type := by
  have hbound : ¬(some maxlen).any (fun maxlen ↦ decide (maxlen ≤ done.length)) = true := fun h ↦
    absurd (of_decide_eq_true h) (Nat.not_le.mpr hroom)
  have hdigits : ¬(hexByte n).any notHex = true := by
    rw [List.any_eq_true]
    rintro ⟨c, hmem, hc⟩
    have hdigit := digitValue_of_mem_hexByte hn hmem
    have hvalue := (of_decide_eq_true hc).2
    omega
  have hne : hexByte n ≠ [] := by simp [hexByte_eq hn]
  have hoctets : pieceOctets (hexByte n) = [some (UInt8.ofNat n)] := by
    have hread := readNumeral_hexByte hn
    have hstar : hexByte n ≠ [42] := by simp [hexByte_eq hn]
    rw [pieceOctets, if_neg hstar]
    rw [hexByte_eq hn] at hread ⊢
    rw [octets, hread]
    rfl
  rw [readPieces, if_neg hbound, if_neg hdigits, readNumeral_hexByte hn, hoctets]
  simp only [hne, ne_eq, not_false_eq_true, true_and]

theorem readPieces_colonHex {maxlen : ℕ} (bytes : List UInt8) :
    ∀ (done : List (Option UInt8)) (macType : Bool) (type : ℕ), bytes ≠ [] →
      done.length + bytes.length ≤ maxlen →
      readPieces (some maxlen) (hexPieces (colonHex bytes)) done macType type =
        ⟨true, done ++ bytes.map some, type⟩ := by
  induction bytes with
  | nil => exact fun _ _ _ hne ↦ absurd rfl hne
  | cons byte bytes ih =>
    intro done macType type _ hroom
    rw [List.length_cons] at hroom
    cases bytes with
    | nil =>
      rw [colonHex, hexPieces_hexByte byte.toNat_lt,
        readPieces_hexByte byte.toNat_lt (by omega), if_neg (by simp),
        readPieces, UInt8.ofNat_toNat]
      rfl
    | cons next rest =>
      rw [colonHex, hexPieces_hexByte_append byte.toNat_lt rfl,
        readPieces_hexByte byte.toNat_lt (by omega), if_neg (by simp), ih _ macType type
            (by simp) (by rw [List.length_append, List.length_singleton]; omega),
        UInt8.ofNat_toNat, List.append_assoc]
      rfl

theorem filled_map_some (text bytes : List UInt8) : filled text (bytes.map some) = bytes := by
  unfold filled
  exact List.ext_getElem (by simp) fun n _ _ ↦ by simp

theorem cString_of_word {text : List UInt8} (htext : ∀ c ∈ text, c ≠ 0) : cString text = text :=
  List.takeWhile_eq_self_iff.mpr fun c hc ↦ decide_eq_true (htext c hc)

theorem length_colonHex (bytes : List UInt8) : (colonHex bytes).length = 3 * bytes.length - 1 := by
  induction bytes with
  | nil => rfl
  | cons byte bytes ih =>
    cases bytes with
    | nil => simp [colonHex, hexByte_eq byte.toNat_lt]
    | cons next rest =>
      rw [colonHex, List.length_append, List.length_cons, ih, hexByte_eq byte.toNat_lt]
      simp only [List.length_cons, List.length_nil]
      omega

theorem plain_of_mem_colonHex {bytes : List UInt8} (hc : c ∈ colonHex bytes) :
    isSpace c = false ∧ c ≠ 42 ∧ c ≠ 0 := by
  induction bytes with
  | nil => exact absurd hc (by simp [colonHex])
  | cons byte bytes ih =>
    have hdigit : c ∈ hexByte byte.toNat → isSpace c = false ∧ c ≠ 42 ∧ c ≠ 0 := fun hmem ↦ by
      have hvalue := digitValue_of_mem_hexByte byte.toNat_lt hmem
      have hplain := digit_plain hvalue
      refine ⟨hplain.2.1, hplain.2.2.1, ?_⟩
      rintro rfl
      exact absurd hvalue (by decide)
    cases bytes with
    | nil => exact hdigit hc
    | cons next rest =>
      rw [colonHex] at hc
      rcases List.mem_append.mp hc with hmem | hmem
      · exact hdigit hmem
      · rcases List.mem_cons.mp hmem with rfl | hmem
        · decide
        · exact ih hmem

theorem parseHex_colonHex {bytes : List UInt8} (hne : bytes ≠ []) {maxlen : ℕ}
    (hroom : bytes.length ≤ maxlen) (macType : Bool) : parseHex maxlen macType (colonHex bytes) =
      some (bytes, 0) := by
  have htext : cString (colonHex bytes) = colonHex bytes :=
    cString_of_word fun c hc ↦ (plain_of_mem_colonHex hc).2.2
  rw [parseHex_eq, htext, readPieces_colonHex bytes [] macType 0 hne
    (by simpa using hroom), if_pos rfl, List.nil_append, filled_map_some]

/-! ### Words come back -/

structure Word (width : ℕ) (text : List UInt8) : Prop where
  ne_nil : text ≠ []
  length_le : text.length ≤ width
  no_space : ∀ c ∈ text, isSpace c = false

theorem word_star {width : ℕ} (hwidth : 1 ≤ width) : Word width [42] :=
  ⟨by simp, hwidth, List.forall_mem_singleton.mpr rfl⟩

theorem Word.scan {width : ℕ} {text : List UInt8} (h : Word width text) (hc : isSpace c = true)
    (rest : List UInt8) : scanField width (text ++ c :: rest) = some (text, c :: rest) :=
  scanField_append h.ne_nil h.length_le h.no_space fun _ hd ↦ Option.some.inj hd ▸ hc

theorem Word.numeral {width n : ℕ} (hwidth : 0 < width) (hn : n < 10 ^ width) :
    Word width (numeral 10 n) where
  ne_nil := numeral_ne_nil 10 n
  length_le := length_numeral_le (by omega) hwidth hn
  no_space c hc := by
    have hdigit := digitValue_of_mem_numeral (by omega : 1 < 10) (by omega) n c hc
    exact (digit_plain (by omega)).2.1

theorem Word.hwaddrText {lease : Lease} (h : HwaddrOk lease) : Word 255 (hwaddrText lease) := by
  have hlength := length_colonHex lease.hwaddr
  have hle := h.length_le
  unfold dhcpChaddrMax at hle
  unfold Dnsmasq.hwaddrText
  split_ifs with htype
  · refine ⟨by simp, ?_, fun c hc ↦ ?_⟩
    · rw [hexByte_eq h.type_lt]
      simp only [List.length_append, List.length_cons, List.length_nil]
      omega
    · rcases List.mem_append.mp hc with hc | hc
      · rcases List.mem_append.mp hc with hc | hc
        · exact (digit_plain (digitValue_of_mem_hexByte h.type_lt hc)).2.1
        · rw [List.mem_singleton.mp hc]
          decide
      · exact (plain_of_mem_colonHex hc).1
  · rw [List.nil_append]
    refine ⟨fun hnil ↦ ?_, by omega, fun c hc ↦ (plain_of_mem_colonHex hc).1⟩
    rw [hnil, List.length_nil] at hlength
    have hne : lease.hwaddr.length ≠ 0 := h.length_eq ▸ (not_or.mp htype).2
    omega

theorem parseHex_hwaddrText {lease : Lease} (h : HwaddrOk lease) :
    ∃ type, parseHex dhcpChaddrMax true (hwaddrText lease) = some (lease.hwaddr, type) ∧
      hwTypeOf type lease.hwaddr = lease.hwaddrType := by
  by_cases htype : lease.hwaddrType ≠ arphrdEther ∨ lease.hwaddrLen = 0
  · refine ⟨lease.hwaddrType, ?_, if_neg fun hether ↦ hether.2 (h.empty hether.1)⟩
    have htext : hwaddrText lease = hexByte lease.hwaddrType ++ 45 :: colonHex lease.hwaddr := by
      unfold hwaddrText
      rw [if_pos htype, List.append_assoc]
      rfl
    have hplain : cString (hwaddrText lease) = hwaddrText lease := by
      refine cString_of_word fun c hc ↦ ?_
      rw [htext] at hc
      rcases List.mem_append.mp hc with hc | hc
      · rintro rfl
        exact absurd (digitValue_of_mem_hexByte h.type_lt hc) (by decide)
      · rcases List.mem_cons.mp hc with rfl | hc
        · decide
        · exact (plain_of_mem_colonHex hc).2.2
    have hread : readPieces (some dhcpChaddrMax) (hexPieces (hwaddrText lease)) [] true 0 =
        ⟨true, lease.hwaddr.map some, lease.hwaddrType⟩ := by
      rw [htext, hexPieces_hexByte_append h.type_lt rfl, readPieces_hexByte h.type_lt (by decide),
        if_pos ⟨rfl, rfl, rfl⟩]
      by_cases hnil : lease.hwaddr = []
      · rw [hnil]
        rfl
      · exact readPieces_colonHex lease.hwaddr [] false _ hnil (by simpa using h.length_le)
    rw [parseHex_eq, hplain, hread, if_pos rfl, filled_map_some]
  · have htext : hwaddrText lease = colonHex lease.hwaddr := by
      unfold hwaddrText
      rw [if_neg htype]
      rfl
    obtain ⟨hether, hlength⟩ := not_or.mp htype
    have hne : lease.hwaddr ≠ [] := fun hnil ↦ hlength (by rw [h.length_eq, hnil]; rfl)
    refine ⟨0, ?_, ?_⟩
    · rw [htext]
      exact parseHex_colonHex hne h.length_le true
    · rw [hwTypeOf, if_pos ⟨rfl, hne⟩, not_not.mp hether]

/-! ### Addresses come back -/

theorem splitDots_plain {part : List UInt8} (hpart : ∀ c ∈ part, c ≠ 46) : splitDots part =
    [part] := by
  induction part with
  | nil => rfl
  | cons c part ih =>
    rw [splitDots, if_neg (hpart c List.mem_cons_self), ih fun d hd ↦
      hpart d (List.mem_cons_of_mem _ hd)]

theorem splitDots_append {part : List UInt8} (hpart : ∀ c ∈ part, c ≠ 46) (rest : List UInt8) :
    splitDots (part ++ 46 :: rest) = part :: splitDots rest := by
  induction part with
  | nil => rfl
  | cons c part ih =>
    rw [List.cons_append, splitDots, if_neg (hpart c List.mem_cons_self),
      ih fun d hd ↦ hpart d (List.mem_cons_of_mem _ hd)]

theorem octetValue_numeral (hn : n < 256) : octetValue (numeral 10 n) = some n := by
  have hvalue : digitsValue 10 (numeral 10 n) = n := digitsValue_numeral (by omega) (by omega) n
  unfold octetValue
  rw [hvalue]
  refine if_pos ⟨numeral_ne_nil 10 n, ?_, fun hhead ↦ ?_, by omega⟩
  · refine List.all_eq_true.mpr fun c hc ↦ decide_eq_true ?_
    exact digitValue_of_mem_numeral (by omega) (by omega) n c hc
  · rw [numeral_head (by omega) (by omega) n hhead]
    rfl

theorem numeral_no_dot (n : ℕ) : ∀ c ∈ numeral 10 n, c ≠ 46 := fun c hc ↦
  have hdigit := digitValue_of_mem_numeral (by omega : 1 < 10) (by omega) n c hc
  (digit_plain (by omega)).2.2.2

theorem inetPton_inetNtop (addr : UInt32) : inetPton (inetNtop addr) = some addr := by
  have hlt := addr.toNat_lt
  have hsplit : splitDots (inetNtop addr) =
    [numeral 10 (addr.toNat / 2 ^ 24), numeral 10 (addr.toNat / 2 ^ 16 % 256),
      numeral 10 (addr.toNat / 2 ^ 8 % 256), numeral 10 (addr.toNat % 256)] := by
    unfold inetNtop
    rw [splitDots_append (numeral_no_dot _), splitDots_append (numeral_no_dot _),
      splitDots_append (numeral_no_dot _), splitDots_plain (numeral_no_dot _)]
  unfold inetPton
  rw [hsplit]
  dsimp only
  rw [octetValue_numeral (by omega), octetValue_numeral (by omega), octetValue_numeral (by omega),
    octetValue_numeral (by omega)]
  dsimp only [Option.bind_some, Option.map_some]
  have hsum : ((addr.toNat / 2 ^ 24 * 256 + addr.toNat / 2 ^ 16 % 256) * 256 + addr.toNat / 2 ^
    8 % 256) * 256 +
      addr.toNat % 256 = addr.toNat := by omega
  rw [hsum, UInt32.ofNat_toNat]

theorem Word.inetNtop (addr : UInt32) : Word 64 (inetNtop addr) := by
  have hlt := addr.toNat_lt
  have hnumeral : ∀ n < 256, Word 3 (Foundation.numeral 10 n) :=
    fun n hn ↦ .numeral (by omega) (by omega)
  have hparts := And.intro (hnumeral (addr.toNat / 2 ^ 24) (by omega)) (And.intro
    (hnumeral (addr.toNat / 2 ^ 16 % 256)
      (by omega)) (And.intro (hnumeral (addr.toNat / 2 ^ 8 % 256) (by omega))
      (hnumeral (addr.toNat % 256) (by omega))))
  obtain ⟨ha, hb, hc, hd⟩ := hparts
  have hlengths :=
    And.intro ha.length_le (And.intro hb.length_le (And.intro hc.length_le hd.length_le))
  unfold Dnsmasq.inetNtop
  refine ⟨by simp, ?_, fun c hmem ↦ ?_⟩
  · simp only [List.length_append, List.length_cons]
    omega
  · simp only [List.mem_append, List.mem_cons] at hmem
    rcases hmem with hmem | rfl | hmem | rfl | hmem | rfl | hmem
    · exact ha.no_space c hmem
    · rfl
    · exact hb.no_space c hmem
    · rfl
    · exact hc.no_space c hmem
    · rfl
    · exact hd.no_space c hmem

theorem expiryOf_numeral (hn : n < 2 ^ 63) : expiryOf (numeral 10 n) = n := by
  have hread : readNumeral 10 (numeral 10 n) = n := by
    have happend := @readNumeral_numeral 10 (by omega) (by omega) n [] (by simp)
    rwa [List.append_nil] at happend
  have hatol : strtol 64 (numeral 10 n) = n := by
    have hplain := digitValue_of_mem_numeral (by omega : 1 < 10) (by omega) n
    rw [strtol, readSigned_of_head, hread, saturate_eq_self (by omega) (by omega)]
    intro c hc
    have hdigit := hplain c (List.mem_of_mem_head? hc)
    refine ⟨(digit_plain (by omega)).2.1, ?_, ?_⟩ <;>
    · rintro rfl
      exact absurd hdigit (by decide)
  unfold expiryOf
  rw [hatol]
  simp

/-! ### A line comes back -/

structure LineOk (lease : Lease) : Prop where
  expires : lease.expires < 2 ^ 63
  hwaddr : HwaddrOk lease
  hostname : ∀ name, lease.hostname = some name → Word 255 name ∧ name ≠ [42]
  clid : ∀ c, lease.clid = some c → ClidLike c

def Lease.fields (lease : Lease) : LeaseFields :=
  ⟨numeral 10 lease.expires, hwaddrText lease, lease.addr, lease.hostname.getD [42], clidText lease⟩

namespace LineOk

variable {lease : Lease} (h : LineOk lease)

include h

theorem word_hostname : Word 255 (lease.hostname.getD [42]) := by
  cases hname : lease.hostname with
  | none => exact word_star (by simp)
  | some name => exact (h.hostname name hname).1

theorem clidText_spec : Word 764 (clidText lease) ∧ clidOf (clidText lease) = lease.clid := by
  unfold clidText
  cases hclid : lease.clid with
  | none => exact ⟨word_star (by simp), rfl⟩
  | some c =>
    have hlike := h.clid c hclid
    cases c with
    | nil => exact absurd rfl hlike.1
    | cons first rest =>
      have hlength := length_colonHex (first :: rest)
      have hle := hlike.2
      have hpos : 0 < (first :: rest).length := by simp
      dsimp only
      have hstar : colonHex (first :: rest) ≠ [42] := fun hstar ↦
        (plain_of_mem_colonHex (show (42 : UInt8) ∈ colonHex (first :: rest) by
          simp [hstar])).2.1 rfl
      refine ⟨⟨fun hnil ↦ ?_, by omega, fun c hc ↦ (plain_of_mem_colonHex hc).1⟩, ?_⟩
      · rw [hnil, List.length_nil] at hlength
        omega
      · rw [clidOf, if_neg hstar, parseHex_colonHex (by simp) hle]
        rfl

theorem scanLease_line (rest : List UInt8) :
    scanLease (leaseLine lease ++ rest) = some (lease.fields, 10 :: rest) := by
  have hexpires : Word 255 (numeral 10 lease.expires) := by
    refine .numeral (by omega) (h.expires.trans_le ?_)
    calc 2 ^ 63 ≤ 10 ^ 63 := Nat.pow_le_pow_left (by omega) 63
      _ ≤ 10 ^ 255 := Nat.pow_le_pow_right (by omega) (by omega)
  have hskip : ∀ (width : ℕ) (input : List UInt8),
    scanField width (32 :: input) = scanField width input :=
    fun width input ↦ scanField_cons width rfl input
  unfold scanLease leaseLine
  simp only [List.append_assoc, List.cons_append, List.nil_append]
  rw [hexpires.scan rfl]
  dsimp only [Option.bind_some]
  rw [hskip, (Word.hwaddrText h.hwaddr).scan rfl]
  dsimp only [Option.bind_some]
  rw [hskip, (Word.inetNtop lease.addr).scan rfl]
  dsimp only [Option.bind_some]
  rw [hskip, h.word_hostname.scan rfl]
  dsimp only [Option.bind_some]
  rw [hskip, h.clidText_spec.1.scan rfl]
  dsimp only [Option.bind_some]
  rw [inetPton_inetNtop]
  rfl

end LineOk

end CrossBreeder.Dnsmasq
