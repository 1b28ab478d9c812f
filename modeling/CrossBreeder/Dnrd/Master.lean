import CrossBreeder.Dnrd.Cache

/-!
# The local master

`master.c` from the loaded database on: the lookups, the assembly of answers, and `master_lookup`
and `master_dontknow`. Strings of the database are kept in lower case with their code.
`masterLookup_congr` is the one fact other modules need: the answer is a function of the parsed
question.
-/

namespace CrossBreeder.Dnrd

open Foundation

/-! ### The database -/

/-- `string_t`. -/
structure MasterString where
  code : ℕ
  string : List UInt8
  deriving DecidableEq, Repr

def mkstring (name : List UInt8) (maxlen : ℕ) : MasterString where
  code := getStringcode (strnlwr name maxlen)
  string := strnlwr name maxlen

inductive RecordData
  | nameip (arpa : MasterString) (ipnum : ℕ)
  | dns (dns : MasterString)
  | authority
  deriving DecidableEq, Repr

/-- `dnsrec_t`. -/
structure DnsRecord where
  object : MasterString
  u : RecordData
  deriving DecidableEq, Repr

/-- The comparison the lookups make: code, then string. -/
def MasterString.is (string : MasterString) (name : List UInt8) : Bool :=
  string.code = getStringcode name ∧ string.string = name

def ptrLookup (db : List DnsRecord) (arpanum : List UInt8) : Option DnsRecord :=
  db.find? fun rec ↦ match rec.u with
    | .nameip arpa _ => arpa.is arpanum
    | _ => false

/-- `name_lookup`, with the address of the record found. -/
def nameLookup (db : List DnsRecord) (name : List UInt8) : Option ℕ :=
  db.findSome? fun rec ↦ match rec.u with
    | .nameip _ ipnum => if rec.object.is name then some ipnum else none
    | _ => none

/-- The test of `dns_lookup` on the object of a record: the name itself or a name below it. -/
def belowObject (name object : List UInt8) : Bool :=
  let k := name.length - object.length
  if object.length < name.length then name.getD (k - 1) 0 = 46 ∧ name.drop k = object
  else name = object

/-- The objects and servers of the records that successive calls of `dns_lookup` return. -/
def dnsLookups (db : List DnsRecord) (name : List UInt8) : List (List UInt8 × List UInt8) :=
  db.filterMap fun rec ↦ match rec.u with
    | .dns dns => if belowObject name rec.object.string then some (rec.object.string, dns.string)
        else none
    | _ => none

/-- `authority_lookup`, from the last record to the first. -/
def authorityLookup (db : List DnsRecord) (domain : List UInt8) : Option DnsRecord :=
  db.reverse.find? fun rec ↦ match rec.u with
    | .authority => rec.object.is domain
    | _ => false

/-! ### Assembly of answers -/

def dnsTypeA : ℕ := 1

def dnsTypeNs : ℕ := 2

def dnsTypePtr : ℕ := 12

def defaultTtl : ℕ := 60 * 60

/-- `ARPADOMAIN`: the text `.in-addr.arpa`. -/
def arpadomain : List UInt8 := [46, 105, 110, 45, 97, 100, 100, 114, 46, 97, 114, 112, 97]

/-- The header under assembly: flags, the counts that vary and the bytes behind the header. -/
structure Assembly where
  u : ℕ
  ancount : ℕ
  nscount : ℕ
  data : List UInt8
  deriving DecidableEq, Repr

/-- `compile_name`: the labels of a dotted text up to the first empty one, and the root. -/
def compileName (name : List UInt8) : List UInt8 :=
  ((name.splitOn 46).takeWhile (· ≠ [])).flatMap
    (fun label ↦ UInt8.ofNat (label.length &&& 0x3f) :: label) ++ [0]

/-- `compile_namepointer`, which keeps six bits of the offset. -/
def compileNamepointer (offset : ℕ) : List UInt8 := [0xc0, UInt8.ofNat (offset &&& 0x3f)]

def compileInt (number : ℕ) : List UInt8 :=
  [highByte (UInt16.ofNat number), lowByte (UInt16.ofNat number)]

/-- `compile_long`: the first four of the eight bytes of an `unsigned long` that holds the result of
`htonl`. -/
def compileLong (order : ByteOrder) (number : ℕ) : List UInt8 :=
  match order with
  | .little => compileInt (number / 65536) ++ compileInt number
  | .big => [0, 0, 0, 0]

def compileObjectname : List UInt8 := [0xc0, 0x0c]

/-- A resource record with a given owner and data: owner, type, class, time to live, and the data
between `start_rdata` and `end_rdata`. -/
def compileRecord (order : ByteOrder) (owner : List UInt8) (type : ℕ) (rdata : List UInt8) :
    List UInt8 :=
  owner ++ compileInt type ++ compileInt dnsClassInet ++ compileLong order defaultTtl ++
    compileInt rdata.length ++ rdata

/-- `begin_assembly`: the reply bit and the question. -/
def beginAssembly (query : Rr) : Assembly where
  u := 0x8000
  ancount := 0
  nscount := 0
  data := compileName query.name ++ compileInt query.type ++ compileInt query.cls

/-- `SET_AA(x->u, 1)`. -/
def setAa (x : Assembly) : Assembly := { x with u := x.u ||| 0x0400 }

def addAnswer (order : ByteOrder) (type : ℕ) (rdata : List UInt8) (x : Assembly) : Assembly :=
  { x with
    ancount := x.ancount + 1
    data := x.data ++ compileRecord order compileObjectname type rdata }

/-- One iteration of `compile_dnsrecords`. `pos` is the offset of the first owner name written, zero
before it. -/
def addAuthority (order : ByteOrder) (state : Assembly × ℕ) (record : List UInt8 × List UInt8) :
    Assembly × ℕ :=
  let x := state.1
  let pos := state.2
  let offset := packetDatabegin + x.data.length
  let owner := if pos = 0 then compileName record.1 else compileNamepointer pos
  ({ x with
      nscount := x.nscount + 1
      data := x.data ++ compileRecord order owner dnsTypeNs (compileName record.2) },
    if pos = 0 then offset else pos)

def compileDnsrecords (order : ByteOrder) (db : List DnsRecord) (object : List UInt8)
    (x : Assembly) : Assembly :=
  let x := ((dnsLookups db object).foldl (addAuthority order) (x, 0)).1
  if 0 < x.nscount then setAa x else x

/-- `end_assembly`: the packet. -/
def endAssembly (x : Assembly) : Packet :=
  [0, 0] ++ compileInt x.u ++ compileInt 1 ++ compileInt x.ancount ++ compileInt x.nscount ++
    compileInt 0 ++ x.data

/-! ### The entry points -/

/-- The last part of `master_lookup`: a negative answer if there is authority for the name or for
what follows its first dot. -/
def negativeAnswer (db : List DnsRecord) (query : Rr) : Option Packet :=
  match query.name.dropWhile (· ≠ 46) with
  | [] => none
  | _ :: domain =>
    if (authorityLookup db query.name).isSome ∨ (authorityLookup db domain).isSome then
      some (endAssembly (setAa (beginAssembly query)))
    else none

/-- The answer of the master to a parsed question. -/
def masterAnswer (order : ByteOrder) (db : List DnsRecord) (query : Rr) : Option Packet :=
  if query.cls ≠ dnsClassInet ∨ getOpcode query.flags ≠ 0 then none
  else if query.type = dnsTypePtr then
    let k := query.name.length - arpadomain.length
    if query.name.length < arpadomain.length ∨ query.name.drop k ≠ arpadomain then none
    else match ptrLookup db (query.name.take k) with
      | some rec => some (endAssembly (compileDnsrecords order db query.name
          (addAnswer order dnsTypePtr (compileName rec.object.string) (beginAssembly query))))
      | none => negativeAnswer db query
  else if query.type = dnsTypeA then
    match nameLookup db query.name with
    | some ipnum => some (endAssembly (compileDnsrecords order db query.name
        (addAnswer order dnsTypeA (compileLong order ipnum) (beginAssembly query))))
    | none => negativeAnswer db query
  else if query.type = dnsTypeNs then
    match dnsLookups db query.name with
    | [] => negativeAnswer db query
    | records => some (endAssembly (setAa (records.foldl
        (fun x record ↦ addAnswer order dnsTypeNs (compileName record.2) x) (beginAssembly query))))
  else none

/-- `master_lookup`: the packet copied over the request behind its id, `none` where the source
returns zero. -/
def masterLookup (cfg : Config) (db : List DnsRecord) (stack : List UInt8) (msg : Packet) :
    Option Packet :=
  if cfg.masterOnoff = false then none
  else (parseQuery cfg.order stack msg).bind (masterAnswer cfg.order db)

/-- `master_dontknow`: an answer without records and with response code one, `none` where the source
returns zero. -/
def masterDontknow (cfg : Config) (stack : List UInt8) (msg : Packet) : Option Packet :=
  if cfg.masterOnoff = false then none
  else match parseQuery cfg.order stack msg with
    | none => none
    | some query =>
      if query.cls ≠ dnsClassInet ∨ getOpcode query.flags ≠ 0 then none
      else
        let x := beginAssembly query
        some (endAssembly { x with u := x.u ||| 1 })

theorem masterLookup_congr {cfg : Config} {db : List DnsRecord} {stack : List UInt8}
    {left right : Packet} (h : parseQuery cfg.order stack left = parseQuery cfg.order stack right) :
    masterLookup cfg db stack left = masterLookup cfg db stack right := by
  unfold masterLookup
  rw [h]

end CrossBreeder.Dnrd
