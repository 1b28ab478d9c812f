import CrossBreeder.Dnsc.NameDecoding

/-!
# Parsing a response

`ngethostbyname` goes through the three sections of a response. The data of an address is stepped
over by its length, but all other data is read as a name and stepped over by the size of that, and
in the authority section there are no addresses. So all is right exactly for a datagram that is a
message of at most twenty records a section, where data that is read as a name is a name of just its
length (`parsesRight_iff`).
-/

namespace CrossBreeder.Dnsc

open Foundation (Returns Round)

/-! ### The code -/

/-- `buf` behind `recvfrom`: the datagram, and behind it what was there before. -/
def received (datagram : List UInt8) (before : ℕ → UInt8) (place : ℕ) :
    UInt8 := datagram.getD place (before place)

/-- `ntohs` of the two bytes at a place. -/
def ntohs (mem : ℕ → UInt8) (place : ℕ) : ℕ := (mem place).toNat * 256 + (mem (place + 1)).toNat

/-- A record: where it is, the size of its name, its `data_len` and where the reader goes from
there, with the places that are looked at. -/
structure RecordRead where
  start : ℕ
  nameSize : ℕ
  dataLen : ℕ
  next : ℕ
  seen : List ℕ

/-- The branch for an address, behind its name. -/
def addressRecord (mem : ℕ → UInt8) (reader : ℕ) (name : NameResult) : RecordRead :=
  let resource := reader + name.count
  let dataLen := ntohs mem (resource + 8)
  { start := reader
    nameSize := name.count
    dataLen := dataLen
    next := resource + 10 + dataLen
    seen := name.seen ++ [resource, resource + 1, resource + 8, resource + 9] ++
      List.range' (resource + 10) dataLen }

/-- The branch for all other types, where the data has been read as a name. -/
def nameRecord (mem : ℕ → UInt8) (reader : ℕ) (name rdata : NameResult) : RecordRead :=
  let resource := reader + name.count
  { start := reader
    nameSize := name.count
    dataLen := ntohs mem (resource + 8)
    next := resource + 10 + rdata.count
    seen := name.seen ++ [resource, resource + 1] ++ rdata.seen }

/-- The body of the loop over a section. In the authority section all data is read as a name, and
the type is looked at when it is printed. -/
def readRecord (authority : Bool) (mem : ℕ → UInt8) (heap : ℕ → ℤ → UInt8) (rounds reader : ℕ) :
    Option RecordRead :=
  (readName mem (heap reader) reader rounds).bind fun name ↦
    if authority = false ∧ ntohs mem (reader + name.count) = 1 then
      some (addressRecord mem reader name)
    else
      let data := reader + name.count + 10
      (readName mem (heap data) data rounds).map (nameRecord mem reader name)

/-- The loop over a section, and the reader behind it. -/
def readSection (authority : Bool) (mem : ℕ → UInt8) (heap : ℕ → ℤ → UInt8) (rounds : ℕ) :
    ℕ → ℕ → Option (List RecordRead × ℕ)
  | 0, reader => some ([], reader)
  | count + 1, reader =>
    (readRecord authority mem heap rounds reader).bind fun record ↦
      (readSection authority mem heap rounds count record.next).map fun rest ↦
        (record :: rest.1, rest.2)

structure Response where
  answers : List RecordRead
  auth : List RecordRead
  addit : List RecordRead
  seen : List ℕ

/-- `ngethostbyname` behind `recvfrom`: the length of the name in the question, the counts and the
sections. -/
def ngethostbyname (datagram : List UInt8) (before : ℕ → UInt8) (heap : ℕ → ℤ → UInt8)
    (rounds : ℕ) : Option Response :=
  let mem := received datagram before
  ((List.range rounds).find? fun k ↦ mem (12 + k) = 0).bind fun qlen ↦
    (readSection false mem heap rounds (ntohs mem 6) (12 + (qlen + 1) + 4)).bind fun answers ↦
      (readSection true mem heap rounds (ntohs mem 8) answers.2).bind fun auth ↦
        (readSection false mem heap rounds (ntohs mem 10) auth.2).map fun addit ↦
          ⟨answers.1, auth.1, addit.1, List.range' 4 8 ++ List.range' 12 (qlen + 1)⟩

/-! ### What is asked for -/

/-- A record is read inside the datagram, and the reader goes on by its name, its ten bytes and its
data. -/
structure RecordRead.Right (mem : ℕ → UInt8) (length : ℕ) (record : RecordRead) : Prop where
  inside : ∀ place ∈ record.seen, place < length
  advance : ∃ text size, Walk mem record.start text size ∧
    record.next = record.start + size + 10 + record.dataLen

/-- Only the datagram is read, the arrays are large enough, and every record is where it is looked
for. -/
def ParsesRight (datagram : List UInt8) (before : ℕ → UInt8) (heap : ℕ → ℤ → UInt8) : Prop :=
  ∃ rounds response, ngethostbyname datagram before heap rounds = some response ∧
    (∀ place ∈ response.seen, place < datagram.length) ∧
    ∀ records ∈ [response.answers, response.auth, response.addit],
      records.length ≤ 20 ∧ ∀ record ∈ records,
        record.Right (received datagram before) datagram.length

/-! ### Messages -/

inductive NameIn (bytes : List UInt8) : ℕ → ℕ → Prop
  | root {place : ℕ} (hzero : bytes[place]? = some 0) : NameIn bytes place 1
  | pointer {place size : ℕ} {high low : UInt8} (hhigh : bytes[place]? = some high) (hpointer :
    192 ≤ high)
      (hlow : bytes[place + 1]? = some low) (hrest : NameIn bytes (pointed high low) size) :
        NameIn bytes place 2
  | literal {place size : ℕ} {c : UInt8} (hbyte : bytes[place]? = some c) (hne : c ≠ 0)
    (hlow : ¬ 192 ≤ c)
      (hrest : NameIn bytes (place + 1) size) : NameIn bytes place (size + 1)

def NumberIn (bytes : List UInt8) (place value : ℕ) : Prop :=
  ∃ high low, bytes[place]? = some high ∧ bytes[place + 1]? = some low ∧
    value = high.toNat * 256 + low.toNat

/-- There is a record from one place to another. What is not an address, and all in the authority
section, is a name that takes its data. -/
def RecordIn (bytes : List UInt8) (authority : Bool) (start next : ℕ) : Prop :=
  ∃ size type dataLen, NameIn bytes start size ∧ NumberIn bytes (start + size) type ∧
    NumberIn bytes (start + size + 8) dataLen ∧ next = start + size + 10 + dataLen ∧
    if authority = false ∧ type = 1 then
      next ≤ bytes.length else NameIn bytes (start + size + 10) dataLen

/-- There are so many records from one place to another. -/
def RecordsIn (bytes : List UInt8) (authority : Bool) : ℕ → ℕ → ℕ → Prop
  | 0, start, next => next = start
  | count + 1, start, next => ∃ middle, RecordIn bytes authority start middle ∧
    RecordsIn bytes authority count middle next

/-- A datagram is a message with a question and at most twenty records a section. -/
def MessageIn (datagram : List UInt8) : Prop :=
  ∃ qlen ans auth addit first second last, datagram[12 + qlen]? = some 0 ∧
    (∀ k < qlen, datagram[12 + k]? ≠ some 0) ∧
    (NumberIn datagram 6 ans ∧ ans ≤ 20) ∧ (NumberIn datagram 8 auth ∧ auth ≤ 20) ∧
    (NumberIn datagram 10 addit ∧ addit ≤ 20) ∧
      RecordsIn datagram false ans (12 + (qlen + 1) + 4) first ∧
    RecordsIn datagram true auth first second ∧ RecordsIn datagram false addit second last

/-! ### Names -/

variable {bytes datagram : List UInt8} {before : ℕ → UInt8} {heap : ℕ → ℤ → UInt8}
    {place start next size : ℕ}
  {authority : Bool} {c : UInt8}

theorem received_of_getElem? (hbyte : datagram[place]? = some c) :
    received datagram before place = c := by
  rw [received, List.getD_eq_getElem?_getD, hbyte]
  rfl

theorem getElem?_of_lt (before : ℕ → UInt8) (hplace : place < datagram.length) :
    datagram[place]? = some (received datagram before place) := by
  rw [received, List.getD_eq_getElem?_getD, List.getElem?_eq_getElem hplace]
  rfl

theorem lt_of_getElem? (hbyte : datagram[place]? = some c) : place < datagram.length :=
  (List.getElem?_eq_some_iff.mp hbyte).1

theorem offsetAt_received {high low : UInt8} (hhigh : datagram[place]? = some high)
    (hlow : datagram[place + 1]? = some low) : offsetAt (received datagram before) place =
      pointed high low := by
  rw [offsetAt, received_of_getElem? hhigh, received_of_getElem? hlow]

theorem NameIn.lt_length (hname : NameIn datagram place size) : place < datagram.length := by
  cases hname with
  | root hzero => exact lt_of_getElem? hzero
  | pointer hhigh => exact lt_of_getElem? hhigh
  | literal hbyte => exact lt_of_getElem? hbyte

theorem exists_walk_of_nameIn (before : ℕ → UInt8) (hname : NameIn datagram place size) :
    ∃ text, Walk (received datagram before) place text size := by
  induction hname with
  | root hzero => exact ⟨[], .root (received_of_getElem? hzero)⟩
  | pointer hhigh hpointer hlow hrest ih =>
    obtain ⟨text, hwalk⟩ := ih
    rw [← offsetAt_received hhigh hlow] at hwalk
    exact ⟨text, .pointer ((received_of_getElem? hhigh).symm ▸ hpointer) hwalk⟩
  | literal hbyte hne hlow hrest ih =>
    obtain ⟨text, hwalk⟩ := ih
    have hmem : received datagram before _ = _ := received_of_getElem? hbyte
    exact ⟨_, .literal (hmem.symm ▸ hne) (hmem.symm ▸ hlow) hwalk⟩

theorem exists_nameIn_pointer (hpointer : 192 ≤ received datagram before place) :
    (∃ size, NameIn datagram place size) ↔
      (place < datagram.length ∧ place + 1 < datagram.length) ∧
        ∃ size, NameIn datagram (offsetAt (received datagram before) place) size := by
  constructor
  · rintro ⟨size, hname⟩
    cases hname with
    | root hzero => exact absurd (received_of_getElem? hzero) (ne_zero_of_pointer hpointer)
    | pointer hhigh hpointer' hlow hrest =>
      have hoffset : offsetAt (received datagram before) place = _ := offsetAt_received hhigh hlow
      rw [← hoffset] at hrest
      exact ⟨⟨lt_of_getElem? hhigh, lt_of_getElem? hlow⟩, _, hrest⟩
    | literal hbyte hne hlow => exact absurd (received_of_getElem? hbyte ▸ hpointer) hlow
  · rintro ⟨⟨hhigh, hlow⟩, size, hrest⟩
    exact ⟨2, .pointer (getElem?_of_lt before hhigh) hpointer (getElem?_of_lt before hlow) hrest⟩

theorem exists_nameIn_literal (hne : received datagram before place ≠ 0)
    (hlow : ¬ 192 ≤ received datagram before place) :
    (∃ size, NameIn datagram place size) ↔ place < datagram.length ∧ ∃ size, NameIn datagram
      (place + 1) size := by
  constructor
  · rintro ⟨size, hname⟩
    cases hname with
    | root hzero => exact absurd (received_of_getElem? hzero) hne
    | pointer hhigh hpointer => exact absurd ((received_of_getElem? hhigh).symm ▸ hpointer) hlow
    | literal hbyte hne' hlow' hrest => exact ⟨lt_of_getElem? hbyte, _, hrest⟩
  · rintro ⟨hplace, size, hrest⟩
    exact ⟨_, .literal (getElem?_of_lt before hplace) hne hlow hrest⟩

theorem seen_lt_iff {s s' : ReadState}
    (hreturns : Returns (readRound (received datagram before)) s s') :
    (∀ place ∈ s'.seen, place < datagram.length) ↔
      (∀ place ∈ s.seen, place < datagram.length) ∧ ∃ size, NameIn datagram s.reader size := by
  induction hreturns with
  | @ret s value hbody =>
    obtain ⟨hzero, rfl⟩ := of_readRound_eq_ret hbody
    rw [List.forall_mem_cons, and_comm]
    refine and_congr_right fun _ ↦
      ⟨fun hplace ↦ ⟨1, .root (hzero ▸ getElem?_of_lt before hplace)⟩, ?_⟩
    rintro ⟨size, hname⟩
    exact hname.lt_length
  | @again s t value hbody hrest ih =>
    rw [ih]
    rcases of_readRound_eq_again hbody with ⟨hpointer, rfl⟩ | ⟨hne, hlow, rfl⟩
    · rw [exists_nameIn_pointer hpointer, ReadState.jump, List.forall_mem_cons,
        List.forall_mem_cons]
      grind
    · rw [exists_nameIn_literal hne hlow, ReadState.take, List.forall_mem_cons]
      grind

theorem nameIn_of_readName {heap : ℤ → UInt8} {reader rounds : ℕ} {r : NameResult}
    (hread : readName (received datagram before) heap reader rounds = some r)
    (hinside : ∀ place ∈ r.seen, place < datagram.length) : NameIn datagram reader r.count := by
  obtain ⟨text, block, s, hwalk, -, -, -, hreturns, hseen⟩ := exists_walk_of_readName hread
  obtain ⟨-, size, hname⟩ := (seen_lt_iff hreturns).mp (hseen ▸ hinside)
  obtain ⟨text', hwalk'⟩ := exists_walk_of_nameIn before hname
  exact (hwalk.unique hwalk').2 ▸ hname

theorem exists_readName_of_nameIn (before : ℕ → UInt8) (heap : ℤ → UInt8)
    (hname : NameIn datagram place size) :
    ∃ enough, ∀ rounds ≥ enough, ∃ r, readName
      (received datagram before) heap place rounds = some r ∧ r.count = size ∧
      ∀ place ∈ r.seen, place < datagram.length := by
  obtain ⟨text, hwalk⟩ := exists_walk_of_nameIn before hname
  obtain ⟨enough, r, hread⟩ := exists_readName_of_walk heap hwalk
  obtain ⟨text', block, s, hwalk', -, -, -, hreturns, hseen⟩ := exists_walk_of_readName hread
  refine ⟨enough, fun rounds hrounds ↦
    ⟨r, readName_of_le hrounds hread, (hwalk'.unique hwalk).2, ?_⟩⟩
  rw [hseen]
  exact (seen_lt_iff hreturns).mpr ⟨(fun _ h ↦ nomatch h), size, hname⟩

/-! ### Records -/

theorem numberIn_iff (before : ℕ → UInt8) (value : ℕ) :
    NumberIn datagram place value ↔ place + 1 < datagram.length ∧ ntohs
      (received datagram before) place = value := by
  constructor
  · rintro ⟨high, low, hhigh, hlow, rfl⟩
    refine ⟨lt_of_getElem? hlow, ?_⟩
    rw [ntohs, received_of_getElem? hhigh, received_of_getElem? hlow]
  · rintro ⟨hplace, rfl⟩
    exact ⟨_, _, getElem?_of_lt before (Nat.lt_of_succ_lt hplace), getElem?_of_lt before hplace,
      rfl⟩

theorem recordIn_of_readRecord {rounds reader : ℕ} {record : RecordRead}
    (hread : readRecord authority (received datagram before) heap rounds reader = some record)
    (hright : record.Right (received datagram before) datagram.length) :
    RecordIn datagram authority reader record.next := by
  obtain ⟨name, hname, hrest⟩ := Option.bind_eq_some_iff.mp hread
  by_cases haddress : authority = false ∧ ntohs (received datagram before) (reader + name.count) = 1
  · rw [if_pos haddress] at hrest
    obtain rfl := Option.some.inj hrest
    have hinside := hright.inside
    simp only [addressRecord, List.forall_mem_append, List.forall_mem_cons,
      List.mem_range'_1] at hinside
    obtain ⟨⟨hseen, htype, htype', hlen, hlen', -⟩, hdata⟩ := hinside
    refine ⟨name.count, _, _, nameIn_of_readName hname hseen,
      (numberIn_iff before _).mpr ⟨htype', rfl⟩, (numberIn_iff before _).mpr ⟨hlen', rfl⟩, rfl, ?_⟩
    rw [if_pos haddress]
    by_contra hlong
    have hlast := hdata (datagram.length) (by dsimp only [addressRecord] at hlong ⊢; omega)
    omega
  · rw [if_neg haddress] at hrest
    obtain ⟨rdata, hrdata, hrest⟩ := Option.map_eq_some_iff.mp hrest
    obtain rfl := hrest
    have hinside := hright.inside
    simp only [nameRecord, List.forall_mem_append, List.forall_mem_cons] at hinside
    obtain ⟨⟨hseen, htype, htype', -⟩, hdata⟩ := hinside
    have hrname := nameIn_of_readName hrdata hdata
    have hbound := hrname.lt_length
    obtain ⟨text, size, hwalk, hadvance⟩ := hright.advance
    obtain ⟨text', block, s, hwalk', -⟩ := exists_walk_of_readName hname
    obtain ⟨-, rfl⟩ := hwalk.unique hwalk'
    have hcount : rdata.count = ntohs (received datagram before) (reader + name.count + 8) := by
      dsimp only [nameRecord] at hadvance
      omega
    refine ⟨name.count, _, _, nameIn_of_readName hname hseen,
      (numberIn_iff before _).mpr ⟨htype', rfl⟩,
      (numberIn_iff before _).mpr
        ⟨by omega, rfl⟩, congrArg (reader + name.count + 10 + ·) hcount, ?_⟩
    rw [if_neg haddress, ← hcount]
    exact hrname

theorem exists_readRecord_of_recordIn (before : ℕ → UInt8) (heap : ℕ → ℤ → UInt8)
    (hrecord : RecordIn datagram authority start next) :
    ∃ enough, ∀ rounds ≥ enough, ∃ record,
      readRecord authority (received datagram before) heap rounds start = some record ∧
      record.next = next ∧
        record.Right (received datagram before) datagram.length := by
  obtain ⟨size, type, dataLen, hname, htype, hlen, rfl, hdata⟩ := hrecord
  obtain ⟨htype', rfl⟩ := (numberIn_iff before _).mp htype
  obtain ⟨hlen', rfl⟩ := (numberIn_iff before _).mp hlen
  obtain ⟨enough, hread⟩ := exists_readName_of_nameIn before (heap start) hname
  obtain ⟨text, hwalk⟩ := exists_walk_of_nameIn before hname
  by_cases haddress : authority = false ∧ ntohs (received datagram before) (start + size) = 1
  · rw [if_pos haddress] at hdata
    refine ⟨enough, fun rounds hrounds ↦ ?_⟩
    obtain ⟨r, hr, rfl, hseen⟩ := hread rounds hrounds
    refine ⟨addressRecord (received datagram before) start r, ?_, rfl, ?_, ⟨text, _, hwalk, rfl⟩⟩
    · unfold readRecord
      rw [hr, Option.bind_some]
      exact if_pos haddress
    · simp only [addressRecord, List.forall_mem_append, List.forall_mem_cons, List.mem_range'_1]
      exact ⟨⟨hseen,
        by omega, by omega, by omega, by omega, fun _ h ↦ nomatch h⟩, fun place hplace ↦ by omega⟩
  · rw [if_neg haddress] at hdata
    obtain ⟨enough', hread'⟩ := exists_readName_of_nameIn before (heap (start + size + 10)) hdata
    refine ⟨max enough enough', fun rounds hrounds ↦ ?_⟩
    obtain ⟨r, hr, rfl, hseen⟩ := hread rounds (Nat.le_trans (Nat.le_max_left ..) hrounds)
    obtain ⟨r', hr', hcount, hseen'⟩ := hread' rounds (Nat.le_trans (Nat.le_max_right ..) hrounds)
    refine ⟨nameRecord (received datagram before) start r r', ?_, ?_, ?_, ⟨text, _, hwalk, ?_⟩⟩
    · unfold readRecord
      rw [hr, Option.bind_some, if_neg haddress]
      dsimp only
      rw [hr']
      rfl
    · exact congrArg (start + r.count + 10 + ·) hcount
    · simp only [nameRecord, List.forall_mem_append, List.forall_mem_cons]
      exact ⟨⟨hseen, by omega, by omega, fun _ h ↦ nomatch h⟩, hseen'⟩
    · exact congrArg (start + r.count + 10 + ·) hcount

/-! ### Sections -/

theorem length_readSection {mem : ℕ → UInt8} {rounds count reader : ℕ}
    {result : List RecordRead × ℕ} (hread : readSection authority mem heap rounds count reader =
      some result) : result.1.length = count := by
  induction count generalizing reader result with
  | zero =>
    obtain rfl := Option.some.inj hread
    rfl
  | succ count ih =>
    obtain ⟨record, hrecord, hrest⟩ := Option.bind_eq_some_iff.mp hread
    obtain ⟨rest, hothers, rfl⟩ := Option.map_eq_some_iff.mp hrest
    exact congrArg Nat.succ (ih hothers)

theorem recordsIn_of_readSection {rounds count reader : ℕ} {result : List RecordRead × ℕ}
    (hread : readSection authority (received datagram before) heap rounds count reader =
      some result)
    (hright : ∀ record ∈ result.1, record.Right (received datagram before) datagram.length) :
    RecordsIn datagram authority count reader result.2 := by
  induction count generalizing reader result with
  | zero =>
    obtain rfl := Option.some.inj hread
    rfl
  | succ count ih =>
    obtain ⟨record, hrecord, hrest⟩ := Option.bind_eq_some_iff.mp hread
    obtain ⟨rest, hothers, rfl⟩ := Option.map_eq_some_iff.mp hrest
    obtain ⟨hfirst, hright⟩ := List.forall_mem_cons.mp hright
    have hrest : RecordsIn datagram authority count record.next rest.2 := ih hothers hright
    exact ⟨record.next, recordIn_of_readRecord hrecord hfirst, hrest⟩

theorem exists_readSection_of_recordsIn (before : ℕ → UInt8) (heap : ℕ → ℤ → UInt8) {count : ℕ}
    (hrecords : RecordsIn datagram authority count start next) :
    ∃ enough, ∀ rounds ≥ enough, ∃ records,
      readSection authority (received datagram before) heap rounds count start = some
      (records, next) ∧
        ∀ record ∈ records, record.Right (received datagram before) datagram.length := by
  induction count generalizing start with
  | zero =>
    obtain rfl : next = start := hrecords
    exact ⟨0, fun rounds _ ↦ ⟨[], rfl, fun _ h ↦ nomatch h⟩⟩
  | succ count ih =>
    obtain ⟨middle, hrecord, hrest⟩ := hrecords
    obtain ⟨enough, hread⟩ := exists_readRecord_of_recordIn before heap hrecord
    obtain ⟨enough', hread'⟩ := ih hrest
    refine ⟨max enough enough', fun rounds hrounds ↦ ?_⟩
    obtain ⟨record, hfirst, rfl, hright⟩ := hread rounds (Nat.le_trans (Nat.le_max_left ..) hrounds)
    obtain ⟨records, hothers, hrights⟩ := hread' rounds (Nat.le_trans (Nat.le_max_right ..) hrounds)
    refine ⟨record :: records, ?_, List.forall_mem_cons.mpr ⟨hright, hrights⟩⟩
    rw [readSection, hfirst, Option.bind_some, hothers]
    rfl

/-! ### The whole response -/

theorem find?_qlen_iff (before : ℕ → UInt8) (qlen rounds : ℕ)
    (hplace : 12 + qlen < datagram.length) :
    ((List.range rounds).find? fun k ↦ received datagram before (12 + k) = 0) = some qlen ↔
      qlen < rounds ∧ datagram[12 + qlen]? = some 0 ∧ ∀ k < qlen, datagram[12 + k]? ≠ some 0 := by
  have hbyte : ∀ k ≤ qlen, received datagram before (12 + k) = 0 ↔ datagram[12 + k]? = some 0 := by
    intro k hk
    rw [getElem?_of_lt before (by omega), Option.some_inj]
  rw [List.find?_range_eq_some, List.mem_range, decide_eq_true_iff, hbyte qlen (Nat.le_refl _),
    and_left_comm]
  refine and_congr_right fun _ ↦ and_congr_right fun _ ↦ forall_congr' fun k ↦
    forall_congr' fun hk ↦ ?_
  rw [Ne, ← hbyte k (Nat.le_of_lt hk)]
  simp

theorem messageIn_of_parsesRight (hright : ParsesRight datagram before heap) :
    MessageIn datagram := by
  revert hright
  rintro ⟨rounds, response, hparse, hseen, hrecords⟩
  obtain ⟨qlen, hqlen, hparse⟩ := Option.bind_eq_some_iff.mp hparse
  obtain ⟨answers, hanswers, hparse⟩ := Option.bind_eq_some_iff.mp hparse
  obtain ⟨auth, hauth, hparse⟩ := Option.bind_eq_some_iff.mp hparse
  obtain ⟨addit, haddit, rfl⟩ := Option.map_eq_some_iff.mp hparse
  simp only [List.forall_mem_append, List.mem_range'_1] at hseen
  simp only [List.forall_mem_cons] at hrecords
  obtain ⟨⟨hlength, hright⟩, ⟨hlength', hright'⟩, ⟨hlength'', hright''⟩, -⟩ := hrecords
  rw [length_readSection hanswers] at hlength
  rw [length_readSection hauth] at hlength'
  rw [length_readSection haddit] at hlength''
  have hplace := hseen.2 (12 + qlen) (by omega)
  have hheader := hseen.1 11 (by omega)
  obtain ⟨-, hzero, hbefore⟩ := (find?_qlen_iff before qlen rounds hplace).mp hqlen
  exact ⟨qlen, _, _, _, _, _, _, hzero, hbefore,
    ⟨(numberIn_iff before _).mpr ⟨by omega, rfl⟩, hlength⟩,
    ⟨(numberIn_iff before _).mpr
      ⟨by omega, rfl⟩, hlength'⟩, ⟨(numberIn_iff before _).mpr ⟨by omega, rfl⟩, hlength''⟩,
    recordsIn_of_readSection hanswers hright, recordsIn_of_readSection hauth hright',
    recordsIn_of_readSection haddit hright''⟩

/-- All is right exactly for messages. -/
theorem parsesRight_iff (datagram : List UInt8) (before : ℕ → UInt8) (heap : ℕ → ℤ → UInt8) :
    ParsesRight datagram before heap ↔ MessageIn datagram := by
  constructor
  · exact messageIn_of_parsesRight
  · rintro ⟨qlen, ans, auth, addit, first, second, last, hzero, hbefore, ⟨hans, hanswers⟩,
      ⟨hauth, hauths⟩, ⟨haddit, haddits⟩, hfirst, hsecond, hlast⟩
    have hplace := lt_of_getElem? hzero
    obtain ⟨hheader, rfl⟩ := (numberIn_iff before _).mp hans
    obtain ⟨hheader', rfl⟩ := (numberIn_iff before _).mp hauth
    obtain ⟨hheader'', rfl⟩ := (numberIn_iff before _).mp haddit
    obtain ⟨enough, hread⟩ := exists_readSection_of_recordsIn before heap hfirst
    obtain ⟨enough', hread'⟩ := exists_readSection_of_recordsIn before heap hsecond
    obtain ⟨enough'', hread''⟩ := exists_readSection_of_recordsIn before heap hlast
    obtain ⟨rounds, hq, h, h', h''⟩ : ∃ rounds, qlen < rounds ∧ enough ≤ rounds ∧ enough' ≤ rounds ∧
      enough'' ≤ rounds :=
      ⟨qlen + 1 + enough + enough' + enough'', by omega, by omega, by omega, by omega⟩
    obtain ⟨answers, hanswers', hright⟩ := hread rounds h
    obtain ⟨auths, hauths', hright'⟩ := hread' rounds h'
    obtain ⟨addits, haddits', hright''⟩ := hread'' rounds h''
    have hqlen := (find?_qlen_iff before qlen rounds hplace).mpr ⟨hq, hzero, hbefore⟩
    refine ⟨rounds, ⟨answers, auths, addits, List.range' 4 8 ++ List.range' 12 (qlen + 1)⟩, ?_, ?_,
      ?_⟩
    · unfold ngethostbyname
      dsimp only
      rw [hqlen, Option.bind_some, hanswers', Option.bind_some, hauths', Option.bind_some, haddits']
      rfl
    · simp only [List.forall_mem_append, List.mem_range'_1]
      exact ⟨fun place h ↦ by omega, fun place h ↦ by omega⟩
    · simp only [List.forall_mem_cons]
      refine ⟨⟨?_, hright⟩, ⟨?_, hright'⟩, ⟨?_, hright''⟩, fun _ h ↦ nomatch h⟩
      · exact Nat.le_trans (Nat.le_of_eq (length_readSection hanswers')) hanswers
      · exact Nat.le_trans (Nat.le_of_eq (length_readSection hauths')) hauths
      · exact Nat.le_trans (Nat.le_of_eq (length_readSection haddits')) haddits

/-- A reply without answers, with an additional record of type 41 that has no data. -/
def optReply : List UInt8 :=
  [0, 1, 129, 128, 0, 1, 0, 0, 0, 0, 0, 1, 0, 0, 1, 0, 1, 0, 0, 41, 16, 0, 0, 0, 0, 0, 0, 0]

theorem not_parsesRight_optReply : ¬ ParsesRight optReply (fun _ ↦ 0) (fun _ _ ↦ 0) := by
  intro hright
  obtain ⟨qlen, ans, auth, addit, first, second, last, hzero, hbefore, ⟨hans, -⟩, ⟨hauth, -⟩,
    ⟨haddit, -⟩, hfirst, hsecond, hlast⟩ := messageIn_of_parsesRight hright
  obtain rfl : qlen = 0 := Nat.eq_zero_of_not_pos fun hpos ↦ hbefore 0 hpos rfl
  obtain ⟨-, rfl⟩ := (numberIn_iff (fun _ ↦ 0) _).mp hans
  obtain ⟨-, rfl⟩ := (numberIn_iff (fun _ ↦ 0) _).mp hauth
  obtain ⟨-, rfl⟩ := (numberIn_iff (fun _ ↦ 0) _).mp haddit
  obtain rfl : first = 17 := hfirst
  obtain rfl : second = 17 := hsecond
  obtain ⟨middle, ⟨size, type, dataLen, hname, htype, hlen, -, hdata⟩, -⟩ := hlast
  obtain rfl : size = 1 := by
    cases hname with
    | root => rfl
    | pointer hhigh hpointer =>
      obtain rfl := Option.some.inj hhigh
      exact absurd hpointer (by decide)
    | literal hbyte hne => exact absurd (Option.some.inj hbyte).symm hne
  obtain ⟨-, rfl⟩ := (numberIn_iff (fun _ ↦ 0) _).mp htype
  rw [if_neg (by decide)] at hdata
  exact absurd hdata.lt_length (by decide)

end CrossBreeder.Dnsc
