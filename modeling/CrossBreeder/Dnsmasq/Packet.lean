import CrossBreeder.Dnsmasq.Cache

/-!
# Packets

The functions of `rfc1035.c` that read a packet: names, sections, addresses in names and the records
of the authority section. A packet is what the buffer contains from the header on, and a position in
it is an offset from there. What is read behind the end of the buffer is zero, and what is written
there is lost.
-/

namespace CrossBreeder.Dnsmasq

open Foundation

/-- The contents of a packet buffer. -/
abbrev Packet := List UInt8

namespace Packet

def byte (packet : Packet) (p : ℕ) : ℕ := (packet.getD p 0).toNat

def getShort (packet : Packet) (p : ℕ) : ℕ := packet.byte p * 256 + packet.byte (p + 1)

def getLong (packet : Packet) (p : ℕ) : ℕ := packet.getShort p * 65536 + packet.getShort (p + 2)

/-- A sequence of bytes is written. -/
def put (packet : Packet) (p : ℕ) : List UInt8 → Packet
  | [] => packet
  | byte :: bytes => put (packet.set p byte) (p + 1) bytes

def putLong (packet : Packet) (p value : ℕ) : Packet :=
  packet.put p [UInt8.ofNat (value / 16777216), UInt8.ofNat (value / 65536),
    UInt8.ofNat (value / 256), UInt8.ofNat value]

def slice (packet : Packet) (p len : ℕ) : List UInt8 :=
  (List.range len).map fun i ↦ packet.getD (p + i) 0

def hb3 (packet : Packet) : ℕ := packet.byte 2

def hb4 (packet : Packet) : ℕ := packet.byte 3

def qdcount (packet : Packet) : ℕ := packet.getShort 4

def ancount (packet : Packet) : ℕ := packet.getShort 6

def nscount (packet : Packet) : ℕ := packet.getShort 8

def arcount (packet : Packet) : ℕ := packet.getShort 10

def rcode (packet : Packet) : ℕ := packet.hb4 &&& 0x0f

end Packet

/-- `sizeof(struct dns_header)`. -/
def headerSize : ℕ := 12

def maxDname : ℕ := 1025

/-- Types and classes of records. -/
def typeA : ℕ := 1
def typeCname : ℕ := 5
def typeSoa : ℕ := 6
def typePtr : ℕ := 12
def typeTxt : ℕ := 16
def typeAaaa : ℕ := 28
def classIn : ℕ := 1

def checkLen (plen p len : ℕ) : Bool := p + len ≤ plen

/-! ### Names -/

/-- The name that `extract_name` builds, or compares with. -/
structure NameScan where
  out : List UInt8
  rest : List UInt8
  cp : ℕ
  differs : Bool

def labelChar (c : UInt8) : Bool := 32 ≤ c ∧ c < 127 ∧ c ≠ 46

/-- One byte of a label is compared. -/
def NameScan.compare (scan : NameScan) (c2 : UInt8) : NameScan :=
  match scan.rest with
  | [] => { scan with differs := true }
  | c1 :: rest =>
    { scan with
      rest := rest, cp := scan.cp + 1, differs := scan.differs || toLower c1 ≠ toLower c2 }

def NameScan.compareDot (scan : NameScan) : NameScan :=
  match scan.rest with
  | [] => scan
  | c :: rest => { scan with rest := rest, cp := scan.cp + 1, differs := scan.differs || c ≠ 46 }

/-- A label of the given length. -/
def NameScan.label (packet : Packet) (isExtract : Bool) (p len : ℕ) (scan : NameScan) :
    Option NameScan :=
  let chars := packet.slice p len
  if isExtract then
    if chars.all labelChar then
      some { scan with out := scan.out ++ chars ++ [46], cp := scan.cp + len + 1 }
    else none
  else some ((chars.foldl NameScan.compare scan).compareDot)

def hexDigit (dig : ℕ) : UInt8 := UInt8.ofNat (if dig < 10 then dig + 48 else dig + 55)

def bitstringDigits (packet : Packet) (p digs : ℕ) : List UInt8 :=
  (List.range digs).map fun j ↦
    hexDigit (if j % 2 = 0 then packet.byte (p + j / 2) / 16 else packet.byte (p + j / 2) % 16)

def decimal (value : ℕ) : List UInt8 := (Nat.toDigits 10 value).map fun c ↦ UInt8.ofNat c.toNat

def bitstringText (packet : Packet) (p count digs : ℕ) : List UInt8 :=
  [92, 91, 120] ++ bitstringDigits packet p digs ++ [47] ++ decimal count ++ [93, 46]

/-- The loop of `extract_name`, with the name and where the packet goes on. -/
def extractNameLoop (packet : Packet) (plen : ℕ) (isExtract : Bool) (extrabytes : ℕ) :
    ℕ → ℕ → Option ℕ → ℕ → NameScan → Option (NameScan × ℕ)
  | 0, _, _, _, _ => none
  | fuel + 1, p, p1, hops, scan =>
    if checkLen plen p 1 = false then none
    else
      let l := packet.byte p
      let p := p + 1
      if l = 0 then
        if checkLen plen p extrabytes then some (scan, p1.getD p) else none
      else if l &&& 0xc0 = 0xc0 then
        -- a pointer
        if checkLen plen p 1 = false then none
        else if 255 < hops + 1 then none
        else
          extractNameLoop packet plen isExtract extrabytes fuel ((l &&& 0x3f) * 256 + packet.byte p)
            (some (p1.getD (p + 1))) (hops + 1) scan
      else if l &&& 0xc0 = 0x80 then none
      else if l &&& 0xc0 = 0x40 then
        -- a bitstring
        if l &&& 0x3f ≠ 1 ∨ isExtract = false then none
        else
          let count := if packet.byte p = 0 then 256 else packet.byte p
          let digs := (count - 1) / 4 + 1
          let p := p + 1
          if maxDname ≤ scan.cp + digs + 9 ∨ checkLen plen p ((count - 1) / 8) = false then none
          else
            let text := bitstringText packet p count digs
            extractNameLoop packet plen isExtract extrabytes fuel (p + digs / 2) p1 hops
              { scan with out := scan.out ++ text, cp := scan.cp + text.length }
      else if maxDname ≤ scan.cp + l + 1 ∨ checkLen plen p l = false then none
      else
        match scan.label packet isExtract p l with
        | none => none
        | some scan => extractNameLoop packet plen isExtract extrabytes fuel (p + l) p1 hops scan

/-- The number of turns of the loop: there are at most 256 stretches without a pointer. -/
def nameFuel (plen : ℕ) : ℕ := 257 * (plen + 1)

/-- `extract_name` that extracts: where the packet goes on, and the name. -/
def extractName (packet : Packet) (plen p extrabytes : ℕ) : Option (ℕ × List UInt8) :=
  (extractNameLoop packet plen true extrabytes (nameFuel plen) p none 0 ⟨[], [], 0, false⟩).map
    fun (scan, p) ↦ (p, scan.out.dropLast)

/-- `extract_name` that compares: where the packet goes on, and whether the name is the same. -/
def matchName (packet : Packet) (plen p : ℕ) (name : List UInt8) (extrabytes : ℕ) :
    Option (ℕ × Bool) :=
  (extractNameLoop packet plen false extrabytes (nameFuel plen) p none 0 ⟨[], name, 0, false⟩).map
    fun (scan, p) ↦ (p, scan.differs = false ∧ scan.rest = [])

/-- The loop of `skip_name`. -/
def skipNameLoop (packet : Packet) (plen : ℕ) : ℕ → ℕ → Option ℕ
  | 0, _ => none
  | fuel + 1, ansp =>
    if checkLen plen ansp 1 = false then none
    else
      let l := packet.byte ansp
      if l &&& 0xc0 = 0xc0 then some (ansp + 2)
      else if l &&& 0xc0 = 0x80 then none
      else if l &&& 0xc0 = 0x40 then
        if checkLen plen ansp 2 = false ∨ l &&& 0x3f ≠ 1 then none
        else
          let count := packet.byte (ansp + 1)
          skipNameLoop packet plen fuel (ansp + 2 + if count = 0 then 32 else (count - 1) / 8 + 1)
      else
        let len := l &&& 0x3f
        if checkLen plen (ansp + 1) len = false then none
        else if len = 0 then some (ansp + 1)
        else skipNameLoop packet plen fuel (ansp + 1 + len)

def skipName (packet : Packet) (plen ansp extrabytes : ℕ) : Option ℕ :=
  (skipNameLoop packet plen (plen + 1) ansp).filter fun ansp ↦ checkLen plen ansp extrabytes

/-- The loop of `skip_questions`. -/
def skipQuestionsLoop (packet : Packet) (plen : ℕ) : ℕ → ℕ → Option ℕ
  | 0, ansp => some ansp
  | count + 1, ansp => match skipName packet plen ansp 4 with
    | none => none
    | some ansp => skipQuestionsLoop packet plen count (ansp + 4)

def skipQuestions (packet : Packet) (plen : ℕ) : Option ℕ :=
  skipQuestionsLoop packet plen packet.qdcount headerSize

/-! ### Addresses -/

def maxArpaname : ℕ := 75

/-- The value of a hexadecimal digit. -/
def xdigit (c : UInt8) : Option ℕ :=
  if 48 ≤ c ∧ c ≤ 57 then some (c.toNat - 48)
  else if 97 ≤ c ∧ c ≤ 102 then some (c.toNat - 87)
  else if 65 ≤ c ∧ c ≤ 70 then some (c.toNat - 55)
  else none

/-- `atoi` of digits, as a byte: `strtol` stops at its largest value. -/
def atoiByte (digits : List UInt8) : UInt8 :=
  UInt8.ofNat (min (digits.foldl (fun value c ↦ value * 10 + (c.toNat - 48)) 0) (2 ^ 63 - 1))

/-- The labels of an address in `in-addr.arpa`, from the low byte on. -/
def arpaAddr4 : List (List UInt8) → List UInt8 → Option (List UInt8)
  | [], addr => some addr
  | chunk :: chunks, addr =>
    if chunk.all (fun c ↦ 48 ≤ c ∧ c ≤ 57) then
      arpaAddr4 chunks (atoiByte chunk :: addr.take 3) else none

def shiftNibble (addr : List UInt8) (dig : ℕ) : List UInt8 :=
  List.zipWith (fun (before byte : UInt8) ↦ (byte >>> 4) ||| (before <<< 4))
    (UInt8.ofNat dig :: addr) addr

/-- The labels of an address in `ip6.arpa`, from the low half byte on. -/
def arpaAddr6 : List (List UInt8) → List UInt8 → Option (List UInt8)
  | [], addr => some addr
  | [c] :: chunks, addr => match xdigit c with
    | none => none
    | some dig => arpaAddr6 chunks (shiftNibble addr dig)
  | _ :: _, _ => none

def pairDigits : List ℕ → List UInt8
  | high :: low :: digits => UInt8.ofNat (high * 16 + low) :: pairDigits digits
  | _ => []

/-- The digits at the start of a text, at most `count`, and what is behind them. -/
def leadingDigits : ℕ → List UInt8 → List ℕ × List UInt8
  | 0, text => ([], text)
  | _ + 1, [] => ([], [])
  | count + 1, c :: text => match xdigit c with
    | none => ([], c :: text)
    | some dig =>
      let (digits, text) := leadingDigits count text
      (dig :: digits, text)

/-- A bitstring of 128 bits in a name. -/
def bitstringAddr (text : List UInt8) : Option (List UInt8) :=
  let (digits, behind) := leadingDigits 32 text
  if behind.head? = some 47 ∧ digits.length = 32 then some (pairDigits digits) else none

/-- `in_arpa_name_2_addr`: whether the address is one of IPv6, and the address. -/
def inArpaName2Addr (name : List UInt8) : Option (Bool × List UInt8) :=
  if maxArpaname < name.length then none
  else
    let chunks := name.splitOn 46
    match chunks.reverse with
    | lastchunk :: penchunk :: labels =>
      if chunks.length < 3 then none
      else if hostnameIsequal lastchunk "arpa".toUTF8.toList ∧
          hostnameIsequal penchunk "in-addr".toUTF8.toList then
        (arpaAddr4 labels.reverse (List.replicate 4 0)).map fun addr ↦ (false, addr)
      else if hostnameIsequal penchunk "ip6".toUTF8.toList ∧
          (hostnameIsequal lastchunk "int".toUTF8.toList ∨
            hostnameIsequal lastchunk "arpa".toUTF8.toList) then
        if name.take 2 = [92, 91] ∧ (name.getD 2 0 = 120 ∨ name.getD 2 0 = 88) then
          (bitstringAddr (((chunks.headD []).drop 3))).map fun addr ↦ (true, addr)
        else (arpaAddr6 labels.reverse (List.replicate 16 0)).map fun addr ↦ (true, addr)
      else none
    | _ => none

/-- `private_net`, with the bytes of the address. -/
def privateNet (addr : List UInt8) (banLocalhost : Bool) : Bool :=
  let first := addr.getD 0 0
  let second := addr.getD 1 0
  (first = 127 ∧ banLocalhost) ∨ (first = 192 ∧ second = 168) ∨ first = 10 ∨
    (first = 172 ∧ second &&& 0xf0 = 16) ∨ (first = 169 ∧ second = 254)

end CrossBreeder.Dnsmasq
