import CrossBreeder.Dnrd.Wire

/-!
# Stepping over resource records

`read_record` and the loops of `dump_dnspacket` over the answer, authority and additional sections.
The position that `read_record` returns is computed from the length after it was cut to the size of
the record's buffer, so that behind a longer record the next one is looked for in the middle of the
data (`readRecord_next`). `RecordsAt` says where the records of a section are; if all of them fit
the buffer, the loops find them there (`readRecords_aligned`).
-/

namespace CrossBreeder.Dnrd

open Foundation

/-- `rr_t`, with the bytes in front of the final zero of `data`. -/
structure ResourceRecord extends Rr where
  ttl : ℕ
  len : ℕ
  data : List UInt8
  deriving DecidableEq, Repr

/-- `sizeof(y->data) - 4`. -/
def rrDatamax : ℕ := rrNamesize - 4

/-- The time to live of a record: of the eight bytes of an `unsigned long`, `ntohl` gets the lower
four. Bytes behind the packet count as zeros. -/
def ttlAt (order : ByteOrder) (msg : Packet) (i : ℕ) : ℕ :=
  match order with
  | .little => shortAt msg i * 65536 + shortAt msg (i + 2)
  | .big => shortAt msg (i + 4) * 65536 + shortAt msg (i + 6)

/-- `read_record` for a packet, with what the record held before: the record and the position behind
it, `none` where the source returns an error. -/
def readRecordInto (order : ByteOrder) (msg : Packet) (y : ResourceRecord) (index : ℤ)
    (question : Bool) : Option (ResourceRecord × ℕ) :=
  match getObjname msg index.toNat rrNamesize with
  | none => none
  | some (dest, i) =>
    if msg.length < i + 4 then none
    else
      let y := { y with
        flags := if dest = [] then clobberFlags order y.flags else y.flags
        name := if dest = [] then y.name else dest.dropLast
        type := shortAt msg i
        cls := shortAt msg (i + 2) }
      if question then some (y, i + 4)
      else if msg.length < i + 4 + 6 then none
      else
        let len := shortAt msg (i + 8)
        if msg.length < i + 10 + len then none
        else
          let len := if rrDatamax < len then rrDatamax else len
          some ({ y with
            ttl := ttlAt order msg (i + 4)
            len := len
            data := (msg.drop (i + 10)).take len }, i + 10 + len)

/-- A loop of `dump_dnspacket` over a number of resource records. -/
def readRecords (order : ByteOrder) (msg : Packet) :
    ℕ → ResourceRecord → ℕ → Option (ResourceRecord × ℕ)
  | 0, y, index => some (y, index)
  | n + 1, y, index =>
    match readRecordInto order msg y index false with
    | none => none
    | some (y, next) => readRecords order msg n y next

/-- A section count of the header: `ntohs` stored in a signed short, as the number of iterations it
gives. -/
def sectionCount (msg : Packet) (offset : ℕ) :
    ℕ := if shortAt msg offset < 32768 then shortAt msg offset else 0

/-- `dump_dnspacket`: the position behind the last record, `none` where the source returns an error.
-/
def dumpDnspacket (order : ByteOrder) (msg : Packet) (y : ResourceRecord) :
    Option (ResourceRecord × ℕ) :=
  (readRecordInto order msg y packetDatabegin true).bind fun (y, index) ↦
    (readRecords order msg (sectionCount msg 6) y index).bind fun (y, index) ↦
      (readRecords order msg (sectionCount msg 8) y index).bind fun (y, index) ↦
        readRecords order msg (sectionCount msg 10) y index

/-! ### Where the records are -/

def rdlength (msg : Packet) (last : ℕ) : ℕ := shortAt msg (last + 8)

/-- The packet holds resource records with data of the given sizes, one behind the other, from one
offset to another. -/
inductive RecordsAt (msg : Packet) : List ℕ → ℕ → ℕ → Prop
  | nil {offset : ℕ} : RecordsAt msg [] offset offset
  | cons {offset last final : ℕ} {labels : List (List UInt8)} {sizes : List ℕ} (hname :
    NameAt msg offset labels last)
      (hrest : RecordsAt msg sizes (last + 10 + rdlength msg last) final) :
      RecordsAt msg (rdlength msg last :: sizes) offset final

/-! ### What is read -/

variable {order : ByteOrder} {msg : Packet} {y y' : ResourceRecord} {index : ℤ} {next : ℕ}

theorem readRecord_spec {question : Bool}
    (h : readRecordInto order msg y index question = some (y', next)) :
    ∃ labels last, NameAt msg index.toNat labels last ∧
      if question then last + 4 ≤ msg.length ∧ next = last + 4
      else last + 10 + rdlength msg last ≤ msg.length ∧ next = last + 10 + min
      (rdlength msg last) rrDatamax := by
  unfold readRecordInto at h
  cases hname : getObjname msg index.toNat rrNamesize with
  | none => simp [hname] at h
  | some decoded =>
    obtain ⟨dest, i⟩ := decoded
    obtain ⟨labels, hlabels, -, -⟩ := getObjname_spec (by decide) hname
    refine ⟨labels, i, hlabels, ?_⟩
    simp only [hname] at h
    by_cases htype : msg.length < i + 4
    · rw [if_pos htype] at h
      contradiction
    · rw [if_neg htype] at h
      cases question with
      | true =>
        obtain ⟨-, rfl⟩ := Prod.mk.inj (Option.some.inj h)
        exact ⟨by omega, rfl⟩
      | false =>
        rw [if_neg Bool.false_ne_true] at h ⊢
        by_cases hrest : msg.length < i + 4 + 6
        · rw [if_pos hrest] at h
          contradiction
        · rw [if_neg hrest] at h
          by_cases hdata : msg.length < i + 10 + shortAt msg (i + 8)
          · rw [if_pos hdata] at h
            contradiction
          · rw [if_neg hdata] at h
            obtain ⟨-, rfl⟩ := Prod.mk.inj (Option.some.inj h)
            refine ⟨by unfold rdlength; omega, ?_⟩
            unfold rdlength
            split_ifs with hlong <;> omega

theorem readRecord_next (h : readRecordInto order msg y index false = some (y', next)) :
    ∃ labels last, NameAt msg index.toNat labels last ∧ last + 10 + rdlength msg last ≤ msg.length ∧
      (next = last + 10 + rdlength msg last ↔ rdlength msg last ≤ rrDatamax) := by
  obtain ⟨labels, last, hname, hbound, hnext⟩ := readRecord_spec h
  exact ⟨labels, last, hname, hbound, by omega⟩

theorem readRecords_aligned {sizes : List ℕ} {offset final : ℕ}
    (hrecords : RecordsAt msg sizes offset final) (hfit : ∀ size ∈ sizes, size ≤ rrDatamax) :
    ∀ {y : ResourceRecord}, readRecords order msg sizes.length y offset = some (y', next) →
      next = final := by
  induction hrecords with
  | nil =>
    intro y hread
    exact (Prod.mk.inj (Option.some.inj hread)).2.symm
  | @cons offset last final labels sizes hname hrest ih =>
    intro y hread
    rw [List.length_cons, readRecords] at hread
    cases hrecord : readRecordInto order msg y offset false with
    | none => simp [hrecord] at hread
    | some result =>
      obtain ⟨y₁, middle⟩ := result
      simp only [hrecord] at hread
      obtain ⟨labels', last', hname', -, hiff⟩ := readRecord_next hrecord
      rw [Int.toNat_natCast] at hname'
      obtain ⟨-, rfl⟩ := hname.unique hname'
      rw [hiff.mpr (hfit _ List.mem_cons_self)] at hread
      exact ih (fun size hsize ↦ hfit size (List.mem_cons_of_mem _ hsize)) hread

/-- A question and three sections in the packet, with as many records as the header says. -/
structure SectionsAt (msg : Packet) (answers authorities additionals : List ℕ) (final : ℕ) :
    Prop where
  answersCount : answers.length = sectionCount msg 6
  authoritiesCount : authorities.length = sectionCount msg 8
  additionalsCount : additionals.length = sectionCount msg 10
  records : ∃ labels last first second, NameAt msg packetDatabegin labels last ∧
    RecordsAt msg answers (last + 4) first ∧
    RecordsAt msg authorities first second ∧ RecordsAt msg additionals second final

theorem dumpDnspacket_aligned {answers authorities additionals : List ℕ} {final : ℕ}
    (hsections : SectionsAt msg answers authorities additionals final)
    (hfit : ∀ size ∈ answers ++ authorities ++ additionals, size ≤ rrDatamax)
    (h : dumpDnspacket order msg y = some (y', next)) : next = final := by
  obtain ⟨labels, last, first, second, hname, hanswers, hauthorities, hadditionals⟩ :=
    hsections.records
  obtain ⟨⟨y₁, index₁⟩, hquestion, h⟩ := Option.bind_eq_some_iff.mp h
  obtain ⟨⟨y₂, index₂⟩, hfirst, h⟩ := Option.bind_eq_some_iff.mp h
  obtain ⟨⟨y₃, index₃⟩, hsecond, hthird⟩ := Option.bind_eq_some_iff.mp h
  obtain ⟨labels', last', hname', -, rfl⟩ := readRecord_spec hquestion
  obtain ⟨-, rfl⟩ := hname.unique hname'
  rw [← hsections.answersCount] at hfirst
  obtain rfl := readRecords_aligned hanswers (fun size hsize ↦ hfit size (by simp [hsize])) hfirst
  rw [← hsections.authoritiesCount] at hsecond
  obtain rfl :=
    readRecords_aligned hauthorities (fun size hsize ↦ hfit size (by simp [hsize])) hsecond
  rw [← hsections.additionalsCount] at hthird
  exact readRecords_aligned hadditionals (fun size hsize ↦ hfit size (by simp [hsize])) hthird

/-- When `read_record` succeeds on a resource record, the position it returns is the one behind the
data exactly if the data has at most 252 bytes. `dump_dnspacket` keeps to the records of the packet
as long as these do. -/
theorem readRecord_aligned_iff (order : ByteOrder) (msg : Packet) :
    (∀ y index y' next, readRecordInto order msg y index false = some (y', next) →
      ∃ labels last, NameAt msg index.toNat labels last ∧
      last + 10 + rdlength msg last ≤ msg.length ∧
        (next = last + 10 + rdlength msg last ↔ rdlength msg last ≤ 252)) ∧
      ∀ answers authorities additionals final y y' next,
      SectionsAt msg answers authorities additionals final →
        (∀ size ∈ answers ++ authorities ++ additionals, size ≤ 252) →
        dumpDnspacket order msg y = some (y', next) → next = final :=
  ⟨fun _ _ _ _ h ↦ readRecord_next h, fun _ _ _ _ _ _ _ hsections hfit h ↦
    dumpDnspacket_aligned hsections hfit h⟩

/-- The first question and the one answer of a packet. -/
theorem readRecord_aligned_short :
    ∃ msg y y', readRecordInto .little msg y 19 false = some (y', 36) ∧
      dumpDnspacket .little msg y = some (y', 36) ∧
      NameAt msg 19 [[97]] 22 ∧ 36 = 22 + 10 + rdlength msg 22 := by
  let msg : Packet := [0, 0, 0, 0, 0, 1, 0, 1, 0, 0, 0, 0] ++ [1, 97, 0, 0, 1, 0, 1] ++
    [1, 97, 0, 0, 1, 0, 1, 0, 0, 0, 0, 0, 4, 10, 0, 0, 1]
  let y : ResourceRecord := ⟨⟨0, [], 0, 0⟩, 0, 0, []⟩
  let y' : ResourceRecord := ⟨⟨0, [97], 1, 1⟩, 0, 4, [10, 0, 0, 1]⟩
  have hread : readRecordInto .little msg y 19 false = some (y', 36) := by decide +kernel
  obtain ⟨labels, last, hname, -, hiff⟩ := (readRecord_aligned_iff .little msg).1 y 19 y' 36 hread
  have hlabel : NameAt msg 19 [[97]] 22 :=
    .label (by decide +kernel) (by decide +kernel) (by decide +kernel) (.root (by
      decide +kernel) (by decide +kernel))
  obtain ⟨rfl, rfl⟩ := hlabel.unique hname
  exact ⟨msg, y, y', hread, by decide +kernel, hlabel, hiff.mpr (by decide +kernel)⟩

/-- A record with 300 bytes of data in a packet of 325 bytes: the next one is looked for 48 bytes
too early. -/
theorem readRecord_clipped :
    ∃ msg y y', msg.length = 325 ∧ NameAt msg 12 [[97]] 15 ∧ rdlength msg 15 = 300 ∧
      readRecordInto .little msg y 12 false = some (y', 277) := by
  let msg : Packet := List.replicate 12 0 ++ [1, 97, 0, 0, 1, 0, 1, 0, 0, 0, 0, 1, 44] ++
    List.replicate 300 7
  let y : ResourceRecord := ⟨⟨0, [], 0, 0⟩, 0, 0, []⟩
  have hread : (readRecordInto .little msg y 12 false).any (fun result ↦ result.2 = 277) =
    true := by decide +kernel
  obtain ⟨⟨y', next⟩, hresult, hnext⟩ := (Option.any_eq_true _ _).mp hread
  obtain rfl : next = 277 := of_decide_eq_true hnext
  refine ⟨msg, y, y', by decide +kernel, ?_, by decide +kernel, hresult⟩
  exact .label (by decide +kernel) (by decide +kernel) (by decide +kernel)
    (.root (by decide +kernel) (by decide +kernel))

end CrossBreeder.Dnrd
