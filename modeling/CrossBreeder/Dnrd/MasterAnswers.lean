import CrossBreeder.Dnrd.CacheQuestion
import CrossBreeder.Dnrd.MasterFiles
import CrossBreeder.Dnrd.Records
import Mathlib.Algebra.BigOperators.Group.List.Basic
import Mathlib.Data.List.GetD

/-!
# What the answers of the master contain

`read_record` of `dns.c` reads a resource record back, and `WellFormedReply` says what the answer of
the master to a question should contain when it is read: the question, and the records that the
lookups in the database give, each with its owner and the name it refers to.

`masterLookup_wellFormed` says which answers are well formed, and `second_authority_owner_is_lost`
is an answer with an owner name behind offset 63.
-/

namespace CrossBreeder.Dnrd

open Foundation

/-! ### Reading records -/

/-- The bytes that `read_record` keeps of the data of a record. -/
def dataRoom : ℕ := rrNamesize - 4

/-- What `read_record` fills of `rr_t` for a record of the answer, with the offset of its data. -/
structure ReadRr where
  name : List UInt8
  type : ℕ
  cls : ℕ
  len : ℕ
  rdata : ℕ
  deriving DecidableEq, Repr

/-- `read_record` for a record that is not a question, with the position behind it. Data that does
not fit is cut, and the rest of it is taken for the next record. -/
def readRecord (packet : Packet) (index : ℕ) : Option (ReadRr × ℕ) :=
  match getObjname packet index rrNamesize with
  | none => none
  | some (dest, i) =>
    if packet.length < i + 4 then none
    else if packet.length < i + 10 then none
    else if packet.length < i + 10 + shortAt packet (i + 8) then none
    else
      let len := if dataRoom < shortAt packet (i + 8) then dataRoom else shortAt packet (i + 8)
      some (⟨dest.dropLast, shortAt packet i, shortAt packet (i + 2), len, i + 10⟩, i + 10 + len)

/-- A record that an answer should contain: its owner, its type and the name it refers to. -/
structure ExpectedRr where
  owner : List UInt8
  type : ℕ
  target : Option (List UInt8)
  deriving DecidableEq, Repr

/-- The record at an offset is the expected one and ends at another offset. The name that it refers
to is read in the packet and not in the bytes that `read_record` copies. -/
def RecordIs (packet : Packet) (index : ℕ) (expected : ExpectedRr) (next : ℕ) : Prop :=
  ∃ record, readRecord packet index = some (record, next) ∧ record.name = expected.owner ∧
    record.type = expected.type ∧ record.cls = dnsClassInet ∧
    ∀ target, expected.target = some target →
      getObjname packet record.rdata rrNamesize = some (target ++ [46], next)

/-- The records from an offset on are the expected ones, and the last of them ends at another
offset. -/
inductive RecordsAre (packet : Packet) : ℕ → List ExpectedRr → ℕ → Prop
  | nil (index : ℕ) : RecordsAre packet index [] index
  | cons {index next last : ℕ} {expected : ExpectedRr} {rest : List ExpectedRr}
      (hrecord : RecordIs packet index expected next) (hrest : RecordsAre packet next rest last) :
      RecordsAre packet index (expected :: rest) last

/-! ### What the master answers -/

/-- The records of an answer: type and target of those of the answer section, and owner and target
of those of the authority section. -/
structure Answer where
  answers : List (ℕ × Option (List UInt8))
  authorities : List (List UInt8 × List UInt8)
  deriving DecidableEq, Repr

/-- A negative answer, if there is authority for the name or for what follows its first dot. -/
def describeNegative (db : List DnsRecord) (query : Rr) : Option Answer :=
  match query.name.dropWhile (· ≠ 46) with
  | [] => none
  | _ :: domain =>
    if (authorityLookup db query.name).isSome ∨ (authorityLookup db domain).isSome then
      some ⟨[], []⟩
    else none

/-- The records that the database gives for a question. -/
def describe (db : List DnsRecord) (query : Rr) : Option Answer :=
  if query.cls ≠ dnsClassInet ∨ getOpcode query.flags ≠ 0 then none
  else if query.type = dnsTypePtr then
    let k := query.name.length - arpadomain.length
    if query.name.length < arpadomain.length ∨ query.name.drop k ≠ arpadomain then none
    else match ptrLookup db (query.name.take k) with
      | some rec => some ⟨[(dnsTypePtr, some rec.object.string)], dnsLookups db query.name⟩
      | none => describeNegative db query
  else if query.type = dnsTypeA then
    match nameLookup db query.name with
    | some _ => some ⟨[(dnsTypeA, none)], dnsLookups db query.name⟩
    | none => describeNegative db query
  else if query.type = dnsTypeNs then
    match dnsLookups db query.name with
    | [] => describeNegative db query
    | records => some ⟨records.map fun record ↦ (dnsTypeNs, some record.2), []⟩
  else none

/-- The records an answer to a question should contain. -/
def Answer.expected (answer : Answer) (query : Rr) : List ExpectedRr :=
  answer.answers.map (fun record ↦ ⟨query.name, record.1, record.2⟩) ++
    answer.authorities.map fun record ↦ ⟨record.1, dnsTypeNs, some record.2⟩

/-- The reply has one question, which is that of the request in lower case, and the records of the
answer, which end with the packet. -/
structure WellFormedReply (msg reply : Packet) (query : Rr) (answer : Answer) : Prop where
  qdcount : shortAt reply 4 = 1
  question : ∃ labels, HasQuestion msg ⟨labels, query.type, query.cls⟩ ∧
    HasQuestion reply ⟨labels.map (List.map toLower), query.type, query.cls⟩
  counts : shortAt reply 6 = answer.answers.length ∧ shortAt reply 8 = answer.authorities.length
  records : ∃ index, getObjname reply packetDatabegin rrNamesize = some (query.name ++
    [46], index) ∧ RecordsAre reply (index + 4) (answer.expected query) reply.length

/-- The buffer of the request after the answer has been copied over it, behind the id. -/
def replyOver (msg packet : Packet) : Packet := msg.take 2 ++ packet.drop 2

/-! ### When the encoding is faithful -/

/-- A text that `compile_name` encodes as it is: no empty label, no label of more than 63 bytes, and
a length for which there is room. -/
def Encodable (name : List UInt8) : Prop :=
  name.length ≤ 254 ∧ ∀ label ∈ name.splitOn 46, 0 < label.length ∧ label.length < 64

instance (name : List UInt8) : Decidable (Encodable name) :=
  inferInstanceAs (Decidable (_ ∧ _))

/-- The bytes that a record with an owner name of two bytes takes. -/
def pointedSize (target : Option (List UInt8)) : ℕ := 12 + target.elim 4 (·.length + 2)

def authorityOffset (query : Rr) (answer : Answer) : ℕ :=
  packetDatabegin + (query.name.length + 6) +
    (answer.answers.map fun record ↦ pointedSize record.2).sum

def packetAssemblysize : ℕ := 600

def answerSize (query : Rr) (answer : Answer) : ℕ :=
  authorityOffset query answer + (answer.authorities.headD ([], [])).1.length +
    (answer.authorities.map fun record ↦ pointedSize (some record.2)).sum

/-- The answer can be assembled: it fits the buffer, the names in it can be encoded and the data
read back, and if there are several records in the authority section, they have one owner, whose
name stands in the first 64 bytes. An encoded name of 250 characters is as long as the data that
`read_record` keeps. -/
structure Compilable (query : Rr) (answer : Answer) : Prop where
  size : answerSize query answer ≤ packetAssemblysize
  targets : ∀ record ∈ answer.answers, ∀ target, record.2 = some target →
    Encodable target ∧ target.length ≤ 250
  servers : ∀ record ∈ answer.authorities, Encodable record.2 ∧ record.2.length ≤ 250
  owner : ∀ first rest, answer.authorities = first :: rest → Encodable first.1
  owners : ∀ first rest, answer.authorities = first :: rest → rest ≠ [] →
    authorityOffset query answer < 64 ∧ ∀ record ∈ rest, record.1 = first.1

/-! ### Bytes of a packet -/

theorem byteAt_append (left right : List UInt8) (offset : ℕ) :
    byteAt (left ++ right) (left.length + offset) = byteAt right offset := by
  unfold byteAt
  rw [List.getD_append_right _ _ _ _ (Nat.le_add_right _ _), Nat.add_sub_cancel_left]

theorem byteAt_append_cons (left right : List UInt8) (byte : UInt8) :
    byteAt (left ++ byte :: right) left.length = byte.toNat := by
  have h := byteAt_append left (byte :: right) 0
  rw [Nat.add_zero] at h
  rw [h]
  rfl

theorem shortAt_compileInt (left right : List UInt8) {number : ℕ} (h : number < 65536) :
    shortAt (left ++ (compileInt number ++ right)) left.length = number := by
  have hhigh := byteAt_append left (compileInt number ++ right) 0
  have hlow := byteAt_append left (compileInt number ++ right) 1
  rw [Nat.add_zero] at hhigh
  rw [shortAt, hhigh, hlow]
  have hnumber : (UInt16.ofNat number).toNat = number := by
    rw [UInt16.toNat_ofNat']
    omega
  show (highByte (UInt16.ofNat number)).toNat * 256 + (lowByte (UInt16.ofNat number)).toNat = number
  unfold highByte lowByte
  rw [hnumber, UInt8.toNat_ofNat', UInt8.toNat_ofNat']
  omega

@[simp] theorem length_compileInt (number : ℕ) : (compileInt number).length = 2 := rfl

@[simp] theorem length_compileLong (order : ByteOrder) (number : ℕ) :
    (compileLong order number).length = 4 := by
  cases order <;> rfl

/-! ### Names -/

def encodeLabels (labels : List (List UInt8)) : List UInt8 :=
  labels.flatMap fun label ↦ UInt8.ofNat (label.length &&& 0x3f) :: label

theorem encodeLabels_cons (label : List UInt8) (labels : List (List UInt8)) :
    encodeLabels (label :: labels) =
      UInt8.ofNat (label.length &&& 0x3f) :: (label ++ encodeLabels labels) := by
  simp [encodeLabels]

theorem toNat_labelLength {length : ℕ} (h : length < 64) :
    (UInt8.ofNat (length &&& 0x3f)).toNat = length := by
  have hmask : length &&& 0x3f = length := by
    rw [show (0x3f : ℕ) = 2 ^ 6 - 1 by decide, Nat.and_two_pow_sub_one_eq_mod]
    omega
  rw [hmask, UInt8.toNat_ofNat']
  omega

def LabelsFit (labels : List (List UInt8)) : Prop :=
  ∀ label ∈ labels, 0 < label.length ∧ label.length < 64

theorem length_encodeLabels (labels : List (List UInt8)) :
    (encodeLabels labels).length = (dotted labels).length := by
  induction labels with
  | nil => rfl
  | cons label labels ih =>
    rw [encodeLabels_cons, dotted_cons]
    simp only [List.length_cons, List.length_append, ih]
    omega

variable {labels : List (List UInt8)}

/-- The decoding loop on a name without pointers. -/
theorem getObjnameLoop_labels (destsize depth compressed : ℕ) (right : List UInt8)
    (hfit : LabelsFit labels) :
    ∀ (left dest : List UInt8) (fuel : ℕ), labels.length < fuel →
      dest.length + (dotted labels).length < destsize →
      getObjnameLoop
      (left ++ (encodeLabels labels ++ 0 :: right)) destsize fuel left.length dest depth
          compressed =
        some (dest ++ dotted labels,
          behindName compressed (left.length + (dotted labels).length + 1)) := by
  induction labels with
  | nil =>
    intro left dest fuel hfuel _
    obtain ⟨fuel, rfl⟩ : ∃ n, fuel = n + 1 := ⟨fuel - 1, by simp at hfuel; omega⟩
    have hzero : byteAt (left ++ 0 :: right) left.length = 0 := byteAt_append_cons left right 0
    simp [getObjnameLoop, encodeLabels, hzero]
  | cons label labels ih =>
    intro left dest fuel hfuel hsize
    obtain ⟨fuel, rfl⟩ : ∃ n, fuel = n + 1 := ⟨fuel - 1, by simp at hfuel; omega⟩
    obtain ⟨hpos, hlen⟩ := hfit label List.mem_cons_self
    have hrest : LabelsFit labels := fun other hother ↦ hfit other (List.mem_cons_of_mem _ hother)
    rw [encodeLabels_cons]
    set tail := encodeLabels labels ++ 0 :: right with htail
    have hmsg : left ++ (UInt8.ofNat (label.length &&& 0x3f) :: (label ++ encodeLabels labels) ++
        0 :: right) = left ++ UInt8.ofNat (label.length &&& 0x3f) :: (label ++ tail) := by
      simp [htail]
    have hbyte : byteAt (left ++ UInt8.ofNat (label.length &&& 0x3f) :: (label ++ tail))
      left.length =
        label.length := by
      rw [byteAt_append_cons, toNat_labelLength hlen]
    have hlabel : labelAt (left ++ UInt8.ofNat (label.length &&& 0x3f) :: (label ++ tail))
        left.length = label := by
      rw [labelAt, hbyte, ← List.drop_drop, List.drop_left, List.drop_one, List.tail_cons,
        List.take_left]
    have htailLength : 0 < tail.length := by
      rw [htail, List.length_append, List.length_cons]
      omega
    have hlength : (left ++ UInt8.ofNat (label.length &&& 0x3f) :: (label ++ tail)).length =
        left.length + 1 + label.length + tail.length := by
      simp only [List.length_append, List.length_cons]
      omega
    rw [dotted_cons, List.length_append, List.length_cons] at hsize
    rw [List.length_cons] at hfuel
    simp only [hmsg, getObjnameLoop, hbyte, hlabel, hlength]
    rw [if_neg (by omega), if_neg (by omega), if_neg (by omega), if_pos hlen, if_neg (by omega),
      if_pos (List.all_eq_true.mpr fun byte _ ↦ validChar_eq_true byte)]
    have hstep := ih hrest (left ++ UInt8.ofNat (label.length &&& 0x3f) :: label)
      (dest ++ label ++ [46]) fuel (by omega) (by
        simp only [List.length_append, List.length_singleton]
        omega)
    have hsame : left ++ UInt8.ofNat (label.length &&& 0x3f) :: label ++ tail =
        left ++ UInt8.ofNat (label.length &&& 0x3f) :: (label ++ tail) := by simp
    have hindex : (left ++ UInt8.ofNat (label.length &&& 0x3f) :: label).length =
        left.length + 1 + label.length := by simp; omega
    rw [hsame, hindex] at hstep
    rw [hstep, dotted_cons]
    congr 2
    · simp
    · simp only [List.length_append, List.length_cons]
      congr 1
      omega

theorem nameAt_labels (right : List UInt8) (hfit : LabelsFit labels) :
    ∀ left : List UInt8, NameAt (left ++ (encodeLabels labels ++ 0 :: right)) left.length labels
      (left.length + (dotted labels).length + 1) := by
  induction labels with
  | nil =>
    intro left
    exact .root (by simp [encodeLabels]) (byteAt_append_cons left right 0)
  | cons label labels ih =>
    intro left
    obtain ⟨hpos, hlen⟩ := hfit label List.mem_cons_self
    have hrest : LabelsFit labels := fun other hother ↦ hfit other (List.mem_cons_of_mem _ hother)
    have hmsg : left ++ (encodeLabels (label :: labels) ++ 0 :: right) =
        left ++ UInt8.ofNat (label.length &&& 0x3f) :: (label ++
          (encodeLabels labels ++ 0 :: right)) := by
      rw [encodeLabels_cons]
      simp
    have hsame : left ++ UInt8.ofNat (label.length &&& 0x3f) ::
        (label ++ (encodeLabels labels ++ 0 :: right)) =
        (left ++ UInt8.ofNat (label.length &&& 0x3f) :: label) ++
          (encodeLabels labels ++ 0 :: right) := by
      simp
    have hbyte : byteAt (left ++ UInt8.ofNat (label.length &&& 0x3f) ::
        (label ++ (encodeLabels labels ++ 0 :: right))) left.length = label.length := by
      rw [byteAt_append_cons, toNat_labelLength hlen]
    have hlabel : labelAt (left ++ UInt8.ofNat (label.length &&& 0x3f) ::
        (label ++ (encodeLabels labels ++ 0 :: right))) left.length = label := by
      rw [labelAt, hbyte, ← List.drop_drop, List.drop_left, List.drop_one, List.tail_cons,
        List.take_left]
    have hstep := ih hrest (left ++ UInt8.ofNat (label.length &&& 0x3f) :: label)
    rw [← hsame] at hstep
    have hindex : (left ++ UInt8.ofNat (label.length &&& 0x3f) :: label).length =
        left.length + 1 + label.length := by
      simp only [List.length_append, List.length_cons]
      omega
    have hlast : left.length + (dotted (label :: labels)).length + 1 =
        (left ++ UInt8.ofNat (label.length &&& 0x3f) :: label).length +
          (dotted labels).length + 1 := by
      rw [dotted_cons]
      simp only [List.length_append, List.length_cons]
      omega
    rw [hmsg, hlast]
    conv => arg 3; rw [← hlabel]
    refine .label (by omega) (by omega) ?_ ?_
    · rw [hbyte]
      simp only [List.length_append, List.length_cons]
      omega
    · rw [hbyte, ← hindex]
      exact hstep

theorem length_le_dotted (labels : List (List UInt8)) : labels.length ≤ (dotted labels).length := by
  induction labels with
  | nil => exact Nat.le_refl _
  | cons label labels ih =>
    rw [dotted_cons]
    simp only [List.length_append, List.length_cons]
    omega

theorem dotted_splitOn (name : List UInt8) : dotted (name.splitOn 46) = name ++ [46] := by
  rw [dotted_eq_intercalate (List.splitOn_ne_nil _ _), List.intercalate_splitOn]

variable {name : List UInt8}

theorem compileName_eq (h : Encodable name) :
    compileName name = encodeLabels (name.splitOn 46) ++ [0] := by
  unfold compileName encodeLabels
  rw [List.takeWhile_eq_self_iff.mpr]
  intro label hlabel
  have hpos := (h.2 label hlabel).1
  simpa using List.ne_nil_of_length_pos hpos

theorem length_compileName (h : Encodable name) :
    (compileName name).length = name.length + 2 := by
  rw [compileName_eq h, List.length_append, length_encodeLabels, dotted_splitOn]
  simp

theorem getObjname_compileName (left right : List UInt8) (hname : Encodable name)
    (hleft : packetDatabegin ≤ left.length) :
    getObjname (left ++ (compileName name ++ right)) left.length rrNamesize =
      some (name ++ [46], left.length + name.length + 2) := by
  have hmsg : left ++ (compileName name ++ right) =
      left ++ (encodeLabels (name.splitOn 46) ++ 0 :: right) := by
    rw [compileName_eq hname]
    simp
  have hdotted := dotted_splitOn name
  have hlabels : (name.splitOn 46).length ≤ name.length + 1 := by
    have hle := length_le_dotted (name.splitOn 46)
    rw [hdotted, List.length_append] at hle
    exact hle
  have hshort := hname.1
  have hloop :=
    getObjnameLoop_labels rrNamesize 0 0 right hname.2 left [] (rrNamesize + udpMaxsize + 2)
    (by unfold rrNamesize udpMaxsize; omega)
    (by
      rw [hdotted]
      simp only [List.length_nil, List.length_append, List.length_singleton]
      unfold rrNamesize
      omega)
  rw [hmsg, getObjname, if_neg, hloop, hdotted]
  · simp [behindName]
    omega
  · simp
    omega

theorem getObjname_pointer {packet before right rest name : List UInt8} (left : List UInt8)
    (offset : UInt8) (hname : Encodable name) (hpacket : packet = left ++ (0xc0 :: offset :: right))
    (htarget : packet = before ++ (compileName name ++ rest))
    (hoffset : offset.toNat = before.length) (hleft : packetDatabegin ≤ left.length) :
    getObjname packet left.length rrNamesize = some (name ++ [46], left.length + 2) := by
  have hdotted := dotted_splitOn name
  have hshort := hname.1
  have hmsg : packet = before ++ (encodeLabels (name.splitOn 46) ++ 0 :: rest) := by
    rw [htarget, compileName_eq hname]
    simp
  have hlabels : (name.splitOn 46).length ≤ name.length + 1 := by
    have hle := length_le_dotted (name.splitOn 46)
    rw [hdotted, List.length_append] at hle
    exact hle
  have hpointer : byteAt packet left.length = 192 := by
    rw [hpacket, byteAt_append_cons]
    rfl
  have hindex : byteAt packet (left.length + 1) = before.length := by
    rw [hpacket, byteAt_append]
    exact hoffset
  have htargetAt : pointerTarget packet left.length = before.length := by
    rw [pointerTarget, hpointer, hindex]
    omega
  have hlength : before.length < packet.length := by
    rw [hmsg]
    simp only [List.length_append, List.length_cons]
    omega
  have hroom : left.length + 1 < packet.length := by
    rw [hpacket]
    simp only [List.length_append, List.length_cons]
    omega
  have hloop := getObjnameLoop_labels rrNamesize 1 (left.length + 2) rest hname.2 before []
    (rrNamesize + udpMaxsize + 1) (by unfold rrNamesize udpMaxsize; omega)
    (by
      rw [hdotted]
      simp only [List.length_nil, List.length_append, List.length_singleton]
      unfold rrNamesize
      omega)
  rw [← hmsg] at hloop
  have hdatabegin : packetDatabegin = 12 := rfl
  rw [getObjname, if_neg (by omega), getObjnameLoop]
  simp only [hpointer, htargetAt]
  rw [if_neg (by decide), if_neg (by omega), if_pos (Nat.le_refl _),
    if_neg (by unfold udpMaxsize; omega), if_neg (by omega)]
  have hbehind : behindName 0 (left.length + 2) = left.length + 2 := rfl
  rw [hbehind, hloop, hdotted]
  simp [behindName]

/-! ### Records -/

variable {order : ByteOrder}

/-- A record that was compiled is read back, if its owner name is. -/
theorem recordIs_of_bytes {packet left right owner name rdata : List UInt8}
    {type : ℕ} (target : Option (List UInt8))
    (hpacket : packet = left ++ (compileRecord order owner type rdata ++ right))
    (hleft : packetDatabegin ≤ left.length)
    (howner : getObjname packet left.length rrNamesize =
      some (name ++ [46], left.length + owner.length))
    (htype : type < 65536) (hrdata : rdata.length ≤ dataRoom)
    (htarget : ∀ text, target = some text → Encodable text ∧ rdata = compileName text) :
    RecordIs packet left.length ⟨name, type, target⟩
      (left.length + owner.length + 10 + rdata.length) := by
  set i := left.length + owner.length with hi
  have hroom : dataRoom = 252 := rfl
  have hbytes : packet = (left ++ owner) ++ (compileInt type ++ (compileInt dnsClassInet ++
      (compileLong order defaultTtl ++ (compileInt rdata.length ++ (rdata ++ right))))) := by
    rw [hpacket, compileRecord]
    simp only [List.append_assoc]
  have hlength : packet.length = i + 10 + rdata.length + right.length := by
    rw [hbytes]
    simp only [List.length_append, length_compileInt, length_compileLong]
    omega
  have htypeAt : shortAt packet i = type := by
    rw [hbytes, hi, ← List.length_append]
    exact shortAt_compileInt _ _ htype
  have hclassAt : shortAt packet (i + 2) = dnsClassInet := by
    have hlead : packet = (left ++ owner ++ compileInt type) ++ (compileInt dnsClassInet ++
        (compileLong order defaultTtl ++ (compileInt rdata.length ++ (rdata ++ right)))) := by
      rw [hbytes]
      simp only [List.append_assoc]
    have hindex : i + 2 = (left ++ owner ++ compileInt type).length := by
      simp only [List.length_append, length_compileInt]
      omega
    rw [hlead, hindex]
    exact shortAt_compileInt _ _ (by decide)
  have hlenAt : shortAt packet (i + 8) = rdata.length := by
    have hlead : packet = (left ++ owner ++ compileInt type ++ compileInt dnsClassInet ++
        compileLong order defaultTtl) ++ (compileInt rdata.length ++ (rdata ++ right)) := by
      rw [hbytes]
      simp only [List.append_assoc]
    have hindex : i + 8 = (left ++ owner ++ compileInt type ++ compileInt dnsClassInet ++
        compileLong order defaultTtl).length := by
      simp only [List.length_append, length_compileInt, length_compileLong]
      omega
    rw [hlead, hindex]
    exact shortAt_compileInt _ _ (by omega)
  refine ⟨⟨name, type, dnsClassInet, rdata.length, i + 10⟩, ?_, rfl, rfl, rfl, ?_⟩
  · rw [readRecord, howner]
    simp only [htypeAt, hclassAt, hlenAt]
    rw [if_neg (by omega), if_neg (by omega), if_neg (by omega), if_neg (by omega),
      List.dropLast_concat]
  · intro text htext
    obtain ⟨hencodable, hrdataText⟩ := htarget text htext
    have hlead : packet = (left ++ owner ++ compileInt type ++ compileInt dnsClassInet ++
        compileLong order defaultTtl ++ compileInt rdata.length) ++
          (compileName text ++ right) := by
      rw [hbytes, ← hrdataText]
      simp only [List.append_assoc]
    have hindex : i + 10 = (left ++ owner ++ compileInt type ++ compileInt dnsClassInet ++
        compileLong order defaultTtl ++ compileInt rdata.length).length := by
      simp only [List.length_append, length_compileInt, length_compileLong]
      omega
    have hread := getObjname_compileName (left ++ owner ++ compileInt type ++
      compileInt dnsClassInet ++ compileLong order defaultTtl ++ compileInt rdata.length)
      right hencodable (by omega)
    rw [← hlead, ← hindex] at hread
    have hsize := length_compileName hencodable
    rw [← hrdataText] at hsize
    rw [hread, hsize]
    congr 2

variable {packet : Packet}

/-- Records that are compiled one behind the other are read back. -/
theorem recordsAre_of_bytes {β : Type*} (bytes : β → List UInt8)
    (expected : β → ExpectedRr) (records : List β) :
    ∀ {left right : List UInt8}, packet = left ++ (records.flatMap bytes ++ right) →
      (∀ front record back, records = front ++ record :: back →
        RecordIs packet (left.length + (front.flatMap bytes).length) (expected record)
          (left.length + (front.flatMap bytes).length + (bytes record).length)) →
      RecordsAre packet left.length (records.map expected)
        (left.length + (records.flatMap bytes).length) := by
  induction records with
  | nil =>
    intro left right _ _
    exact .nil _
  | cons record records ih =>
    intro left right hpacket hrecords
    have hfirst := hrecords [] record records rfl
    simp only [List.flatMap_nil, List.length_nil, Nat.add_zero] at hfirst
    have hsplit : packet = (left ++ bytes record) ++ (records.flatMap bytes ++ right) := by
      rw [hpacket, List.flatMap_cons]
      simp only [List.append_assoc]
    have hrest := ih hsplit fun front other back hback ↦ by
      have hother := hrecords (record :: front) other back (by rw [hback]; rfl)
      rw [List.flatMap_cons, List.length_append, ← Nat.add_assoc, ← List.length_append] at hother
      exact hother
    rw [List.map_cons, List.flatMap_cons, List.length_append, ← Nat.add_assoc]
    rw [List.length_append] at hrest
    exact .cons hfirst hrest

theorem RecordsAre.exists_of_cons {index last : ℕ} {expected : ExpectedRr}
    {rest : List ExpectedRr} (h : RecordsAre packet index (expected :: rest) last) :
    ∃ next, RecordIs packet index expected next ∧ RecordsAre packet next rest last := by
  cases h with
  | cons hrecord hrest => exact ⟨_, hrecord, hrest⟩

theorem RecordIs.read_eq {index next last : ℕ} {expected : ExpectedRr}
    {record : ReadRr} (h : RecordIs packet index expected next)
    (hread : readRecord packet index = some (record, last)) :
    next = last ∧ record.name = expected.owner := by
  obtain ⟨other, hother, hname, -⟩ := h
  obtain ⟨rfl, rfl⟩ := Prod.mk.inj (Option.some.inj (hother.symm.trans hread))
  exact ⟨rfl, hname⟩

theorem RecordsAre.append {index middle last : ℕ} {first second : List ExpectedRr}
    (hfirst : RecordsAre packet index first middle)
    (hsecond : RecordsAre packet middle second last) :
    RecordsAre packet index (first ++ second) last := by
  induction hfirst with
  | nil => exact hsecond
  | cons hrecord _ ih => exact .cons hrecord (ih hsecond)

/-! ### The bytes of an answer -/

/-- A record of the answer section with its data: the name it refers to, or an address. -/
structure Rendered where
  record : ℕ × Option (List UInt8)
  rdata : List UInt8
  short : record.1 < 65536
  size : rdata.length = record.2.elim 4 fun target ↦ (compileName target).length
  name : ∀ target, record.2 = some target → rdata = compileName target

def Rendered.named (type : ℕ) (hshort : type < 65536) (target : List UInt8) : Rendered where
  record := (type, some target)
  rdata := compileName target
  short := hshort
  size := rfl
  name := by
    intro text htext
    rw [Option.some.inj htext]

def Rendered.address (order : ByteOrder) (ipnum : ℕ) : Rendered where
  record := (dnsTypeA, none)
  rdata := compileLong order ipnum
  short := by decide
  size := length_compileLong order ipnum
  name := by
    intro text htext
    exact absurd htext (by simp)

def answerBytes (order : ByteOrder) (rendered : Rendered) : List UInt8 :=
  compileRecord order compileObjectname rendered.record.1 rendered.rdata

def authorityBytes (order : ByteOrder) (owner : List UInt8) (record : List UInt8 × List UInt8) :
    List UInt8 :=
  compileRecord order owner dnsTypeNs (compileName record.2)

def authoritySection (order : ByteOrder) (offset : ℕ) :
    List (List UInt8 × List UInt8) → List UInt8
  | [] => []
  | first :: rest => authorityBytes order (compileName first.1) first ++
      rest.flatMap (authorityBytes order (compileNamepointer offset))

def questionBytes (query : Rr) : List UInt8 :=
  compileName query.name ++ compileInt query.type ++ compileInt query.cls

def headerBytes (flags : ℕ) (answer : Answer) : List UInt8 :=
  compileInt flags ++ (compileInt 1 ++ (compileInt answer.answers.length ++
    (compileInt answer.authorities.length ++ compileInt 0)))

def leadingBytes (order : ByteOrder) (query : Rr) (rendered : List Rendered) : List UInt8 :=
  questionBytes query ++ rendered.flatMap (answerBytes order)

theorem foldl_addAuthority (order : ByteOrder) {pos : ℕ} (hpos : pos ≠ 0)
    (records : List (List UInt8 × List UInt8)) (x : Assembly) :
    records.foldl (addAuthority order) (x, pos) =
      ({ x with
          nscount := x.nscount + records.length
          data := x.data ++ records.flatMap (authorityBytes order (compileNamepointer pos)) },
        pos) := by
  induction records generalizing x with
  | nil => simp
  | cons record records ih =>
    rw [List.foldl_cons, addAuthority]
    simp only [if_neg hpos]
    rw [ih]
    simp only [List.length_cons, List.flatMap_cons, authorityBytes, List.append_assoc,
      Prod.mk.injEq, Assembly.mk.injEq, true_and, and_true]
    omega

theorem compileDnsrecords_eq (order : ByteOrder) (db : List DnsRecord) (object : List UInt8)
    (x : Assembly) (hcount : x.nscount = 0) :
    ∃ flags, compileDnsrecords order db object x =
      { u := flags
        ancount := x.ancount
        nscount := (dnsLookups db object).length
        data := x.data ++
          authoritySection order (packetDatabegin + x.data.length) (dnsLookups db object) } := by
  unfold compileDnsrecords
  generalize dnsLookups db object = records
  rcases records with _ | ⟨first, rest⟩
  · refine ⟨x.u, ?_⟩
    cases x
    simp only at hcount
    subst hcount
    simp [authoritySection]
  · have hpos : packetDatabegin + x.data.length ≠ 0 := by
      unfold packetDatabegin
      omega
    refine ⟨x.u ||| 0x0400, ?_⟩
    rw [List.foldl_cons, addAuthority]
    simp only [if_true]
    rw [foldl_addAuthority order hpos]
    simp only [setAa, hcount, authoritySection, authorityBytes, List.length_cons, List.append_assoc]
    rw [if_pos (by omega)]
    simp only [Assembly.mk.injEq, true_and, and_true]
    omega

theorem foldl_addAnswer (order : ByteOrder) (records : List (List UInt8 × List UInt8))
    (x : Assembly) :
    records.foldl (fun x record ↦ addAnswer order dnsTypeNs (compileName record.2) x) x =
      { x with
        ancount := x.ancount + records.length
        data := x.data ++ (records.map fun record ↦
          Rendered.named dnsTypeNs (by decide) record.2).flatMap (answerBytes order) } := by
  induction records generalizing x with
  | nil => simp
  | cons record records ih =>
    rw [List.foldl_cons, ih]
    simp only [addAnswer, List.length_cons, List.map_cons, List.flatMap_cons, answerBytes,
      Rendered.named, List.append_assoc, Assembly.mk.injEq, true_and, and_true]
    omega

structure Assembled (order : ByteOrder) (query : Rr) (answer : Answer) (packet : Packet) :
    Prop where
  bytes : ∃ flags rendered, rendered.map Rendered.record = answer.answers ∧
    packet = [0, 0] ++ (headerBytes flags answer ++ (leadingBytes order query rendered ++
      authoritySection order (packetDatabegin + (leadingBytes order query rendered).length)
        answer.authorities))

theorem assembled_lookup (order : ByteOrder) (db : List DnsRecord) (query : Rr)
    (rendered : Rendered) : Assembled order query ⟨[rendered.record], dnsLookups db query.name⟩
      (endAssembly (compileDnsrecords order db query.name
        (addAnswer order rendered.record.1 rendered.rdata (beginAssembly query)))) := by
  obtain ⟨flags, hx⟩ := compileDnsrecords_eq order db query.name
    (addAnswer order rendered.record.1 rendered.rdata (beginAssembly query)) rfl
  rw [hx]
  refine ⟨flags, [rendered], rfl, ?_⟩
  simp [endAssembly, addAnswer, beginAssembly, headerBytes, leadingBytes,
    questionBytes, answerBytes]

theorem assembled_negative (order : ByteOrder) (query : Rr) :
    Assembled order query ⟨[], []⟩ (endAssembly (setAa (beginAssembly query))) := by
  refine ⟨0x8000 ||| 0x0400, [], rfl, ?_⟩
  simp [endAssembly, setAa, beginAssembly, headerBytes, leadingBytes, questionBytes,
    authoritySection]

variable {query : Rr}

variable {answer : Answer}

theorem assembled_of_negativeAnswer {db : List DnsRecord}
    (h : negativeAnswer db query = some packet)
    (hanswer : describeNegative db query = some answer) : Assembled order query answer packet := by
  unfold negativeAnswer at h
  unfold describeNegative at hanswer
  split at h
  · exact absurd h (by simp)
  · rename_i hdomain
    simp only [hdomain] at hanswer
    split_ifs at h hanswer
    obtain rfl := Option.some.inj h
    obtain rfl := Option.some.inj hanswer
    exact assembled_negative order query

theorem assembled_of_masterAnswer {db : List DnsRecord}
    (h : masterAnswer order db query = some packet)
    (hanswer : describe db query = some answer) : Assembled order query answer packet := by
  -- both functions make the same tests; what is left of each case is the packet and the answer
  unfold masterAnswer at h
  unfold describe at hanswer
  split_ifs at h hanswer with hclass hptr ha
  · simp only at h hanswer
    split_ifs at h hanswer
    cases hlookup : ptrLookup db (query.name.take (query.name.length - arpadomain.length)) with
    | some rec =>
      simp only [hlookup] at h hanswer
      obtain rfl := Option.some.inj h
      obtain rfl := Option.some.inj hanswer
      exact assembled_lookup order db query (.named dnsTypePtr (by decide) rec.object.string)
    | none =>
      simp only [hlookup] at h hanswer
      exact assembled_of_negativeAnswer h hanswer
  · cases hlookup : nameLookup db query.name with
    | some ipnum =>
      simp only [hlookup] at h hanswer
      obtain rfl := Option.some.inj h
      obtain rfl := Option.some.inj hanswer
      exact assembled_lookup order db query (.address order ipnum)
    | none =>
      simp only [hlookup] at h hanswer
      exact assembled_of_negativeAnswer h hanswer
  · cases hrecords : dnsLookups db query.name with
    | nil =>
      simp only [hrecords] at h hanswer
      exact assembled_of_negativeAnswer h hanswer
    | cons first rest =>
      simp only [hrecords] at h hanswer
      obtain rfl := Option.some.inj h
      obtain rfl := Option.some.inj hanswer
      rw [foldl_addAnswer]
      refine ⟨0x8000 ||| 0x0400, (first :: rest).map fun record ↦
        .named dnsTypeNs (by decide) record.2, ?_, ?_⟩
      · simp [Rendered.named]
      · simp [endAssembly, setAa, beginAssembly, headerBytes, leadingBytes, questionBytes,
          authoritySection]

/-! ### Reading the answer back -/

section Reading

variable {order : ByteOrder} {query : Rr} {answer : Answer} {header packet : Packet}
  {rendered : List Rendered}

theorem length_compileRecord (order : ByteOrder) (owner : List UInt8) (type : ℕ)
    (rdata : List UInt8) :
    (compileRecord order owner type rdata).length = owner.length + 10 + rdata.length := by
  simp only [compileRecord, List.length_append, length_compileInt, length_compileLong]

theorem length_questionBytes (hname : Encodable query.name) :
    (questionBytes query).length = query.name.length + 6 := by
  simp only [questionBytes, List.length_append, length_compileInt, length_compileName hname]

theorem Compilable.target_of_rendered (hcompilable : Compilable query answer)
    (hrendered : rendered.map Rendered.record = answer.answers) {one : Rendered}
    (hone : one ∈ rendered) {target : List UInt8} (htarget : one.record.2 = some target) :
    Encodable target ∧ target.length ≤ 250 :=
  hcompilable.targets one.record (hrendered ▸ List.mem_map_of_mem hone) target htarget

theorem length_rdata (hcompilable : Compilable query answer)
    (hrendered : rendered.map Rendered.record = answer.answers) {one : Rendered}
    (hone : one ∈ rendered) :
    12 + one.rdata.length = pointedSize one.record.2 ∧ one.rdata.length ≤ dataRoom := by
  have hsize := one.size
  rw [hsize, pointedSize]
  rcases htarget : one.record.2 with _ | target
  · exact ⟨rfl, by decide⟩
  · obtain ⟨hencodable, hshort⟩ := hcompilable.target_of_rendered hrendered hone htarget
    rw [Option.elim_some, Option.elim_some, length_compileName hencodable]
    exact ⟨rfl, by unfold dataRoom rrNamesize; omega⟩

theorem length_leadingBytes (order : ByteOrder) (hname : Encodable query.name)
    (hcompilable : Compilable query answer)
    (hrendered : rendered.map Rendered.record = answer.answers) :
    packetDatabegin + (leadingBytes order query rendered).length =
      authorityOffset query answer := by
  have hanswers : rendered.map (fun one ↦ (answerBytes order one).length) =
      rendered.map fun one ↦ pointedSize one.record.2 :=
    List.map_congr_left fun one hone ↦ by
      rw [answerBytes, length_compileRecord]
      exact (length_rdata hcompilable hrendered hone).1
  rw [leadingBytes, List.length_append, length_questionBytes hname, List.length_flatMap, hanswers,
    authorityOffset, ← hrendered, List.map_map]
  simp only [Function.comp_def]
  omega

/-- The records of the answer section, which all have the name of the question for an owner. -/
theorem recordsAre_answers {right : List UInt8} (hheader : header.length = packetDatabegin)
    (hpacket : packet = header ++ (leadingBytes order query rendered ++ right))
    (hname : Encodable query.name) (hcompilable : Compilable query answer)
    (hrendered : rendered.map Rendered.record = answer.answers) :
    RecordsAre packet (packetDatabegin + (query.name.length + 6))
      (answer.answers.map fun record ↦ ⟨query.name, record.1, record.2⟩)
      (authorityOffset query answer) := by
  have hstart : (header ++ questionBytes query).length =
    packetDatabegin + (query.name.length + 6) := by
    rw [List.length_append, length_questionBytes hname, hheader]
  have hbytes : packet =
      (header ++ questionBytes query) ++ (rendered.flatMap (answerBytes order) ++ right) := by
    rw [hpacket, leadingBytes]
    simp only [List.append_assoc]
  have htargetBytes : packet = header ++ (compileName query.name ++ (compileInt query.type ++
      (compileInt query.cls ++ (rendered.flatMap (answerBytes order) ++ right)))) := by
    rw [hbytes, questionBytes]
    simp only [List.append_assoc]
  have hrecords := recordsAre_of_bytes (answerBytes order)
    (fun one ↦ ⟨query.name, one.record.1, one.record.2⟩) rendered hbytes ?_
  · have hexpected : rendered.map (fun one ↦
        (⟨query.name, one.record.1, one.record.2⟩ : ExpectedRr)) =
        answer.answers.map fun record ↦ ⟨query.name, record.1, record.2⟩ := by
      rw [← hrendered, List.map_map]
      rfl
    have hend := length_leadingBytes order hname hcompilable hrendered
    rw [leadingBytes, List.length_append, length_questionBytes hname, ← Nat.add_assoc] at hend
    rw [hstart, hexpected, hend] at hrecords
    exact hrecords
  · intro front one back hfront
    obtain ⟨left, hleft⟩ : ∃ left, left = header ++ questionBytes query ++
        front.flatMap (answerBytes order) := ⟨_, rfl⟩
    have hmem : one ∈ rendered := by simp [hfront]
    have hleftLength : (header ++ questionBytes query).length +
        (front.flatMap (answerBytes order)).length = left.length := by
      rw [hleft]
      exact List.length_append.symm
    have hsplit : packet = left ++ (compileRecord order compileObjectname one.record.1 one.rdata ++
        (back.flatMap (answerBytes order) ++ right)) := by
      rw [hbytes, hfront, hleft]
      simp [answerBytes]
    have hlong : packetDatabegin ≤ left.length := by
      rw [← hleftLength, hstart]
      omega
    have howner := getObjname_pointer left 0x0c hname hsplit htargetBytes hheader.symm hlong
    rw [hleftLength]
    have hrecord := recordIs_of_bytes one.record.2 hsplit hlong howner one.short ?_ ?_
    · rw [answerBytes, length_compileRecord, ← Nat.add_assoc, ← Nat.add_assoc]
      exact hrecord
    · exact (length_rdata hcompilable hrendered hmem).2
    · intro target htarget
      exact ⟨(hcompilable.target_of_rendered hrendered hmem htarget).1, one.name target htarget⟩

/-- A record of the authority section is read back if its owner name is. -/
theorem recordIs_authority {left right owner : List UInt8} {record : List UInt8 × List UInt8}
    (hcompilable : Compilable query answer) (hmem : record ∈ answer.authorities)
    (hpacket : packet = left ++ (authorityBytes order owner record ++ right))
    (hleft : packetDatabegin ≤ left.length)
    (howner : getObjname packet left.length rrNamesize =
      some (name ++ [46], left.length + owner.length)) :
    RecordIs packet left.length ⟨name, dnsTypeNs, some record.2⟩
      (left.length + (authorityBytes order owner record).length) := by
  obtain ⟨hencodable, hshort⟩ := hcompilable.servers record hmem
  have hrecord := recordIs_of_bytes (some record.2) hpacket hleft howner (by decide) ?_ ?_
  · rw [authorityBytes, length_compileRecord, ← Nat.add_assoc, ← Nat.add_assoc]
    exact hrecord
  · rw [length_compileName hencodable]
    unfold dataRoom rrNamesize
    omega
  · intro target htarget
    obtain rfl := Option.some.inj htarget
    exact ⟨hencodable, rfl⟩

/-- The records of the authority section: the first one has its owner name, and the others a pointer
to it. -/
theorem recordsAre_authorities {left : List UInt8} (hcompilable : Compilable query answer)
    (hleft : left.length = authorityOffset query answer)
    (hpacket : packet = left ++
      authoritySection order (authorityOffset query answer) answer.authorities) :
    RecordsAre packet (authorityOffset query answer)
      (answer.authorities.map fun record ↦ ⟨record.1, dnsTypeNs, some record.2⟩) packet.length := by
  have hlong : packetDatabegin ≤ left.length := by
    rw [hleft, authorityOffset]
    omega
  rcases hauthorities : answer.authorities with _ | ⟨first, rest⟩
  · rw [hauthorities, authoritySection, List.append_nil] at hpacket
    rw [hpacket, ← hleft]
    exact .nil _
  rw [hauthorities, authoritySection] at hpacket
  have howner := hcompilable.owner first rest hauthorities
  -- the bytes of the owner name of the first record, to which the other records point
  obtain ⟨behind, hbehind⟩ : ∃ behind, packet = left ++ (compileName first.1 ++ behind) := by
    rw [hpacket, authorityBytes, compileRecord]
    simp only [List.append_assoc]
    exact ⟨_, rfl⟩
  have hreadFirst := getObjname_compileName left behind howner hlong
  rw [← hbehind, Nat.add_assoc, ← length_compileName howner] at hreadFirst
  have hfirst := recordIs_authority hcompilable (by simp [hauthorities]) hpacket hlong hreadFirst
  have hbytes : packet = (left ++ authorityBytes order (compileName first.1) first) ++
      (rest.flatMap (authorityBytes order (compileNamepointer (authorityOffset query answer))) ++
        []) := by
    rw [hpacket]
    simp only [List.append_assoc, List.append_nil]
  have hrest := recordsAre_of_bytes
    (authorityBytes order (compileNamepointer (authorityOffset query answer)))
    (fun record ↦ ⟨record.1, dnsTypeNs, some record.2⟩) rest hbytes ?_
  · rw [List.map_cons, ← hleft]
    rw [List.length_append] at hrest
    have hend : packet.length =
      left.length + (authorityBytes order (compileName first.1) first).length +
        (rest.flatMap
          (authorityBytes order (compileNamepointer (authorityOffset query answer)))).length := by
      rw [hpacket]
      simp only [List.length_append]
      omega
    rw [hend]
    exact .cons hfirst hrest
  · intro front record back hfront
    obtain ⟨hoffset, hsame⟩ := hcompilable.owners first rest hauthorities (by simp [hfront])
    have hname : record.1 = first.1 := hsame record (by simp [hfront])
    obtain ⟨before, hbefore⟩ : ∃ before, before = left ++
        authorityBytes order (compileName first.1) first ++ front.flatMap
          (authorityBytes order (compileNamepointer (authorityOffset query answer))) := ⟨_, rfl⟩
    have hbeforeLength : (left ++ authorityBytes order (compileName first.1) first).length +
        (front.flatMap (authorityBytes order
          (compileNamepointer (authorityOffset query answer)))).length = before.length := by
      rw [hbefore]
      exact List.length_append.symm
    have hbeforeLong : packetDatabegin ≤ before.length := by
      rw [← hbeforeLength, List.length_append]
      omega
    have hsplit : packet = before ++ (authorityBytes order
        (compileNamepointer (authorityOffset query answer)) record ++ (back.flatMap
          (authorityBytes order (compileNamepointer (authorityOffset query answer))))) := by
      rw [hbytes, hfront, hbefore]
      simp
    have hread :=
      getObjname_pointer before (UInt8.ofNat (authorityOffset query answer &&& 0x3f)) howner
      hsplit hbehind (by rw [toNat_labelLength hoffset, hleft]) hbeforeLong
    rw [← hname] at hread
    rw [hbeforeLength]
    exact recordIs_authority hcompilable (by simp [hauthorities, hfront]) hsplit hbeforeLong hread

end Reading

/-! ### The question -/

theorem splitOn_dottedKey (hplain : PlainLabels labels) :
    (dottedKey labels).splitOn 46 = labels.map (List.map toLower) := by
  have hlabels : labels.map (List.map toLower) ≠ [] := by simpa using hplain.1
  rw [dottedKey, List.map_dropLast, map_toLower_dotted, dotted_eq_intercalate hlabels,
    List.dropLast_concat]
  refine List.splitOn_intercalate _ ?_ hlabels
  intro label hlabel
  obtain ⟨original, horiginal, rfl⟩ := List.mem_map.mp hlabel
  exact dot_notMem_map_toLower (hplain.2 original horiginal).1

theorem length_dotted_of_parseQuery {stack : List UInt8} {msg : Packet}
    (h : parseQuery order stack msg = some query) {last : ℕ}
    (hname : NameAt msg packetDatabegin labels last) : (dotted labels).length < rrNamesize := by
  unfold parseQuery at h
  split_ifs at h
  cases hobject : getObjname msg packetDatabegin rrNamesize with
  | none => simp [hobject] at h
  | some result =>
    obtain ⟨labels', hname', hdest, hshort⟩ := getObjname_spec (by decide) hobject
    rw [(hname.unique hname').1, ← hdest]
    exact hshort

theorem parseQuery_plain {stack : List UInt8} {msg : Packet}
    (h : parseQuery order stack msg = some query) (hplain : PlainName msg) :
    ∃ labels, HasQuestion msg ⟨labels, query.type, query.cls⟩ ∧
      query.name.splitOn 46 = labels.map (List.map toLower) ∧ Encodable query.name := by
  obtain ⟨labels, last, hname, hbound, htype, hcls, hkey⟩ := parseQuery_spec h
  have hlabels := hplain labels last hname
  have hshort := length_dotted_of_parseQuery h hname
  rw [hkey hlabels, splitOn_dottedKey hlabels]
  refine ⟨labels, ⟨last, hname, hbound, htype, hcls⟩, rfl, ?_, ?_⟩
  · rw [dottedKey, List.length_map, List.length_dropLast]
    unfold rrNamesize at hshort
    omega
  · rw [splitOn_dottedKey hlabels]
    intro label hlabel
    obtain ⟨original, horiginal, rfl⟩ := List.mem_map.mp hlabel
    rw [List.length_map]
    exact hname.label_length original horiginal

/-! ### The answers -/

theorem shortAt_lt (msg : Packet) (offset : ℕ) : shortAt msg offset < 65536 := by
  have hhigh : byteAt msg offset < 256 := UInt8.toNat_lt _
  have hlow : byteAt msg (offset + 1) < 256 := UInt8.toNat_lt _
  rw [shortAt]
  omega

theorem Compilable.counts (hcompilable : Compilable query answer) :
    answer.answers.length < 65536 ∧ answer.authorities.length < 65536 := by
  have hpointed : ∀ target, 1 ≤ pointedSize target := by
    intro target
    unfold pointedSize
    omega
  have hanswers :=
    List.length_le_sum_of_one_le (answer.answers.map fun record ↦ pointedSize record.2) (by
      intro size hsize
      obtain ⟨record, -, rfl⟩ := List.mem_map.mp hsize
      exact hpointed _)
  have hauthorities := List.length_le_sum_of_one_le
    (answer.authorities.map fun record ↦ pointedSize (some record.2)) (by
      intro size hsize
      obtain ⟨record, -, rfl⟩ := List.mem_map.mp hsize
      exact hpointed _)
  rw [List.length_map] at hanswers hauthorities
  have hsize := hcompilable.size
  unfold answerSize authorityOffset packetAssemblysize at hsize
  omega

theorem hasQuestion_questionBytes {header right : List UInt8}
    (hheader : header.length = packetDatabegin) (hname : Encodable query.name)
    (htype : query.type < 65536) (hcls : query.cls < 65536) :
    HasQuestion (header ++ (questionBytes query ++ right))
      ⟨query.name.splitOn 46, query.type, query.cls⟩ := by
  obtain ⟨rest, hrest⟩ : ∃ rest, rest = compileInt query.type ++ (compileInt query.cls ++ right) :=
    ⟨_, rfl⟩
  have hbytes : header ++ (questionBytes query ++ right) =
      header ++ (encodeLabels (query.name.splitOn 46) ++ 0 :: rest) := by
    rw [questionBytes, compileName_eq hname, hrest]
    simp
  have hbehind : header ++ (questionBytes query ++ right) =
      (header ++ compileName query.name) ++
        (compileInt query.type ++ (compileInt query.cls ++ right)) := by
    rw [questionBytes]
    simp only [List.append_assoc]
  have hlast : header.length + (dotted (query.name.splitOn 46)).length + 1 =
      (header ++ compileName query.name).length := by
    rw [dotted_splitOn, List.length_append, List.length_append, length_compileName hname]
    rfl
  have hnameAt := nameAt_labels rest hname.2 header
  rw [← hbytes, hlast] at hnameAt
  have htypeAt : shortAt (header ++ (questionBytes query ++ right))
      (header ++ compileName query.name).length = query.type := by
    rw [hbehind]
    exact shortAt_compileInt _ _ htype
  have hclsAt : shortAt (header ++ (questionBytes query ++ right))
      ((header ++ compileName query.name).length + 2) = query.cls := by
    have hsplit : header ++ (questionBytes query ++ right) =
        (header ++ compileName query.name ++ compileInt query.type) ++
          (compileInt query.cls ++ right) := by
      rw [questionBytes]
      simp only [List.append_assoc]
    rw [hsplit, ← length_compileInt query.type, ← List.length_append]
    exact shortAt_compileInt _ _ hcls
  refine ⟨_, hheader ▸ hnameAt, ?_, htypeAt.symm, hclsAt.symm⟩
  rw [hbehind]
  simp only [List.length_append, length_compileInt]
  omega

theorem shortAt_headerBytes {ids body : List UInt8} {flags : ℕ} (hids : ids.length = 2)
    (hcounts : answer.answers.length < 65536 ∧ answer.authorities.length < 65536) :
    shortAt (ids ++ headerBytes flags answer ++ body) 4 = 1 ∧
      shortAt (ids ++ headerBytes flags answer ++ body) 6 = answer.answers.length ∧
      shortAt (ids ++ headerBytes flags answer ++ body) 8 = answer.authorities.length := by
  have hread : ∀ (left right : List UInt8) (number offset : ℕ),
      ids ++ headerBytes flags answer ++ body = left ++ (compileInt number ++ right) →
      left.length = offset → number < 65536 →
      shortAt (ids ++ headerBytes flags answer ++ body) offset = number := by
    intro left right number offset hsplit hleft hnumber
    rw [hsplit, ← hleft]
    exact shortAt_compileInt left right hnumber
  refine ⟨?_, ?_, ?_⟩
  · refine hread (ids ++ compileInt flags) (compileInt answer.answers.length ++
      (compileInt answer.authorities.length ++ (compileInt 0 ++ body))) 1 4 ?_ ?_ (by decide)
    · simp only [headerBytes, List.append_assoc]
    · simp [hids]
  · refine hread (ids ++ compileInt flags ++ compileInt 1)
      (compileInt answer.authorities.length ++ (compileInt 0 ++ body)) _ 6 ?_ ?_ hcounts.1
    · simp only [headerBytes, List.append_assoc]
    · simp [hids]
  · refine hread (ids ++ compileInt flags ++ compileInt 1 ++ compileInt answer.answers.length)
      (compileInt 0 ++ body) _ 8 ?_ ?_ hcounts.2
    · simp only [headerBytes, List.append_assoc]
    · simp [hids]

/-- The master answers a plain question with a well-formed packet, if the records it finds can be
encoded. -/
theorem masterLookup_wellFormed {cfg : Config} {db : List DnsRecord} {stack : List UInt8}
    {msg packet : Packet} {query : Rr} {answer : Answer}
    (hquery : parseQuery cfg.order stack msg = some query)
    (hlookup : masterLookup cfg db stack msg = some packet)
    (hanswer : describe db query = some answer) (hplain : PlainName msg)
    (hcompilable : Compilable query answer) :
    WellFormedReply msg (replyOver msg packet) query answer := by
  obtain ⟨labels, hquestion, hsplit, hname⟩ := parseQuery_plain hquery hplain
  have hmaster : masterAnswer cfg.order db query = some packet := by
    unfold masterLookup at hlookup
    split_ifs at hlookup
    rw [hquery] at hlookup
    exact hlookup
  obtain ⟨flags, rendered, hrendered, hpacket⟩ := assembled_of_masterAnswer hmaster hanswer
  have hoffset := length_leadingBytes cfg.order hname hcompilable hrendered
  have hid : (msg.take 2).length = 2 := by
    obtain ⟨last, hnameAt, hbound, -⟩ := hquestion
    have hlast : packetDatabegin < last := hnameAt.lt_last
    rw [List.length_take]
    omega
  obtain ⟨header, hheader⟩ : ∃ header, header = msg.take 2 ++ headerBytes flags answer := ⟨_, rfl⟩
  have hheaderLength : header.length = packetDatabegin := by
    rw [hheader, List.length_append, hid]
    rfl
  have hreply : replyOver msg packet = header ++ (leadingBytes cfg.order query rendered ++
      authoritySection cfg.order (authorityOffset query answer) answer.authorities) := by
    rw [replyOver, hpacket, hoffset, hheader]
    simp
  have hquestionBytes : replyOver msg packet = header ++ (questionBytes query ++
      (rendered.flatMap (answerBytes cfg.order) ++
        authoritySection cfg.order (authorityOffset query answer) answer.authorities)) := by
    rw [hreply, leadingBytes]
    simp only [List.append_assoc]
  obtain ⟨hqdcount, hancount, hnscount⟩ := shortAt_headerBytes hid hcompilable.counts
  have hcounts : ∀ offset number, shortAt (msg.take 2 ++ headerBytes flags answer ++
      (leadingBytes cfg.order query rendered ++ authoritySection cfg.order
        (authorityOffset query answer) answer.authorities)) offset = number →
      shortAt (replyOver msg packet) offset = number := by
    intro offset number hnumber
    rw [hreply, hheader]
    exact hnumber
  have htypes : query.type < 65536 ∧ query.cls < 65536 := by
    obtain ⟨last, -, -, htype, hcls⟩ := hquestion
    simp only at htype hcls
    rw [htype, hcls]
    exact ⟨shortAt_lt _ _, shortAt_lt _ _⟩
  refine ⟨hcounts 4 1 hqdcount, ⟨labels, hquestion, ?_⟩,
    ⟨hcounts 6 _ hancount, hcounts 8 _ hnscount⟩, ?_⟩
  · rw [← hsplit, hquestionBytes]
    exact hasQuestion_questionBytes hheaderLength hname htypes.1 htypes.2
  · refine ⟨packetDatabegin + query.name.length + 2, ?_, ?_⟩
    · have hread := getObjname_compileName header (compileInt query.type ++ (compileInt query.cls ++
        (rendered.flatMap (answerBytes cfg.order) ++ authoritySection cfg.order
          (authorityOffset query answer) answer.authorities))) hname (by omega)
      rw [hquestionBytes, questionBytes]
      simp only [List.append_assoc]
      rw [← hheaderLength]
      exact hread
    · have hanswers := recordsAre_answers hheaderLength hreply hname hcompilable hrendered
      have hleft : (header ++ leadingBytes cfg.order query rendered).length =
          authorityOffset query answer := by
        rw [List.length_append, hheaderLength, hoffset]
      rw [← List.append_assoc] at hreply
      have hauthorities := recordsAre_authorities hcompilable hleft hreply
      have hindex : packetDatabegin + query.name.length + 2 + 4 =
          packetDatabegin + (query.name.length + 6) := by omega
      rw [hindex]
      exact hanswers.append hauthorities

/-! ### Two configurations -/

/-- `inet_aton` on the two addresses of the sample. -/
def sampleAton (text : List UInt8) : Option ℕ :=
  if text = loopback then some 0x7f000001
  -- 10.1.2.3
  else if text = [49, 48, 46, 49, 46, 50, 46, 51] then some 0x0a010203
  else none

/-- A configuration with the lines `domain` with a domain and the name servers `ns` and `gw`, and
`10.1.2.3 a`. -/
def sampleFiles (domain filename : List UInt8) : Option (List UInt8) :=
  if filename = [109] then
    some ([100, 111, 109, 97, 105, 110, 32] ++ domain ++ [32, 110, 115, 32, 103, 119, 10] ++
      [49, 48, 46, 49, 46, 50, 46, 51, 32, 97, 10])
  else none

def sampleDatabase (domain : List UInt8) : List DnsRecord :=
  masterInit sampleAton (sampleFiles domain) [] [109] []

/-- A request for the address of the host. -/
def sampleRequest (domain : List UInt8) : Packet :=
  [0, 7, 1, 0, 0, 1, 0, 0, 0, 0, 0, 0, 1, 97, UInt8.ofNat domain.length] ++ domain ++
    [0, 0, 1, 0, 1]

def sampleQuery (domain : List UInt8) : Rr := ⟨0x0100, [97, 46] ++ domain, dnsTypeA, dnsClassInet⟩

/-- The records for the request: the address, and two name servers of the domain. -/
def sampleAnswer (domain : List UInt8) : Answer where
  answers := [(dnsTypeA, none)]
  authorities := [(domain, [110, 115, 46] ++ domain), (domain, [103, 119, 46] ++ domain)]

/-- The domain `lan`. -/
def shortDomain : List UInt8 := [108, 97, 110]

def longDomain : List UInt8 := List.replicate 34 100

theorem plainName_sampleRequest : PlainName (sampleRequest shortDomain) := by
  intro labels last hname
  have hfit : LabelsFit [[97], shortDomain] := by
    unfold LabelsFit
    decide
  have hlabels := nameAt_labels [0, 1, 0, 1] hfit [0, 7, 1, 0, 0, 1, 0, 0, 0, 0, 0, 0]
  obtain ⟨rfl, -⟩ := hname.unique hlabels
  exact ⟨by simp, by decide⟩

theorem compilable_sample : Compilable (sampleQuery shortDomain) (sampleAnswer shortDomain) where
  size := by decide
  targets := by
    intro record hrecord target htarget
    rw [List.mem_singleton.mp hrecord] at htarget
    exact absurd htarget (by simp)
  servers := by decide
  owner := by
    intro first rest hauthorities
    obtain ⟨rfl, -⟩ := List.cons.inj hauthorities
    decide
  owners := by
    intro first rest hauthorities _
    obtain ⟨rfl, rfl⟩ := List.cons.inj hauthorities
    exact ⟨by decide, by decide⟩

/-- The answer about a host of the domain `lan` has two records in the authority section and is well
formed. -/
theorem masterLookup_wellFormed_lan :
    ∃ packet, masterLookup defaultConfig (sampleDatabase shortDomain) []
      (sampleRequest shortDomain) =
        some packet ∧
      WellFormedReply (sampleRequest shortDomain) (replyOver (sampleRequest shortDomain) packet)
        (sampleQuery shortDomain) (sampleAnswer shortDomain) := by
  have hsome : (masterLookup defaultConfig (sampleDatabase shortDomain) []
      (sampleRequest shortDomain)).isSome := by decide +kernel
  obtain ⟨packet, hpacket⟩ := Option.isSome_iff_exists.mp hsome
  exact ⟨packet, hpacket, masterLookup_wellFormed (by decide +kernel) hpacket (by decide +kernel)
    plainName_sampleRequest compilable_sample⟩

def longPacket : Packet :=
  (masterLookup defaultConfig (sampleDatabase longDomain) [] (sampleRequest longDomain)).getD []

def longReply : Packet := replyOver (sampleRequest longDomain) longPacket

/-- For a host of a domain of thirty-four letters the owner of the second record of the authority
section is read as the root: the owner name of the first stands at offset 70, and the pointer to it
is written as one to offset 6. -/
theorem second_authority_owner_is_lost :
    masterLookup defaultConfig (sampleDatabase longDomain) [] (sampleRequest longDomain) =
        some longPacket ∧
      parseQuery .little [] (sampleRequest longDomain) = some (sampleQuery longDomain) ∧
      describe (sampleDatabase longDomain) (sampleQuery longDomain) = some
      (sampleAnswer longDomain) ∧
      ¬ WellFormedReply (sampleRequest longDomain) longReply (sampleQuery longDomain)
        (sampleAnswer longDomain) := by
  have hname : getObjname longReply packetDatabegin rrNamesize =
      some ([97, 46] ++ longDomain ++ [46], 50) := by decide +kernel
  have hfirst : readRecord longReply 54 =
      some (⟨[97, 46] ++ longDomain, dnsTypeA, dnsClassInet, 4, 66⟩, 70) := by decide +kernel
  have hsecond : readRecord longReply 70 =
      some (⟨longDomain, dnsTypeNs, dnsClassInet, 39, 116⟩, 155) := by decide +kernel
  have hthird : readRecord longReply 155 =
      some (⟨[], dnsTypeNs, dnsClassInet, 39, 167⟩, 206) := by decide +kernel
  refine ⟨by decide +kernel, by decide +kernel, by decide +kernel, fun hreply ↦ ?_⟩
  obtain ⟨index, hindex, hrecords⟩ := hreply.records
  have hquestion : index = 50 := by
    have hsame := hindex.symm.trans hname
    exact (Prod.mk.inj (Option.some.inj hsame)).2
  rw [hquestion] at hrecords
  obtain ⟨next, hnext, hrecords⟩ := hrecords.exists_of_cons
  rw [(hnext.read_eq hfirst).1] at hrecords
  obtain ⟨next, hnext, hrecords⟩ := hrecords.exists_of_cons
  rw [(hnext.read_eq hsecond).1] at hrecords
  obtain ⟨next, hnext, -⟩ := hrecords.exists_of_cons
  exact absurd (hnext.read_eq hthird).2 (by decide)

end CrossBreeder.Dnrd
