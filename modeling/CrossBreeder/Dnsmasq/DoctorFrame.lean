import CrossBreeder.Dnsmasq.Doctoring
import CrossBreeder.Dnsmasq.NameSkipping

/-!
# What the doctor changes

Where the records of a section are is read off the packet as it comes (`RecordAt`). `do_doctor`
should change no more than the AA flag and addresses of four bytes in A records, and access no byte
outside the packet (`DoctorFrames`). `doctorFrames_iff` is the exact condition: the accesses for the
log are inside the packet, and an address that is replaced by another one has four bytes, which the
source does not check.
-/

namespace CrossBreeder.Dnsmasq

open Foundation

/-! ### Where records are -/

/-- How a bitstring in the name of a record is passed: as `extract_name` does it for the log, or as
`skip_name` does it. -/
def passedData (log : Bool) : ℕ → ℕ := if log then extractData else skipData

/-- Among so many records from an offset on there is one whose type is at `q`. -/
inductive RecordAt (packet : Packet) (data : ℕ → ℕ) : ℕ → ℕ → ℕ → Prop
  | first {count p q : ℕ} (hname : EndsAt packet data p q) : RecordAt packet data (count + 1) p q
  | later {count p q q' : ℕ} (hname : EndsAt packet data p q)
      (hrest : RecordAt packet data count (dataEnd packet q) q') :
        RecordAt packet data (count + 1) p q'

section Places

variable {packet packet' : Packet} {data : ℕ → ℕ} {p q e e' count : ℕ}

theorem Reading.le (h : Reading packet data p q) : p ≤ q := by
  induction h with
  | done => exact le_rfl
  | chars _ _ _ ih => omega
  | bits _ _ ih => omega

theorem EndsAt.lt (h : EndsAt packet data p e) : p < e := by
  obtain ⟨q, hreading, hend⟩ := h
  have hle := hreading.le
  omega

theorem EndsAt.unique (h : EndsAt packet data p e) (h' : EndsAt packet data p e') : e = e' := by
  obtain ⟨q, hreading, hend⟩ := h
  have hlast := h'.of_reading hreading
  rcases hend with ⟨hroot, rfl⟩ | ⟨hpointer, rfl⟩
  · exact (hlast.of_root hroot).symm
  · exact (hlast.of_pointer hpointer).symm

theorem Reading.same {data : ℕ → ℕ} (h : Reading packet data p q)
    (hbytes : ∀ k, p ≤ k → k < q → packet'.getD k 0 = packet.getD k 0) :
    Reading packet' data p q := by
  induction h with
  | done => exact .done _
  | @chars p q hlow hhigh hrest ih =>
    have hle := hrest.le
    have hbyte : packet'.byte p = packet.byte p := by
      rw [Packet.byte, hbytes p le_rfl (by omega), Packet.byte]
    rw [← hbyte] at hlow hhigh ih
    exact .chars hlow hhigh (ih fun k hk ↦ hbytes k (by omega))
  | @bits p q hbits hrest ih =>
    have hle := hrest.le
    have hbyte : packet'.byte p = packet.byte p := by
      rw [Packet.byte, hbytes p le_rfl (by omega), Packet.byte]
    have hcount : bitCount packet' p = bitCount packet p := by
      rw [bitCount, bitCount, Packet.byte, hbytes (p + 1) (by omega) (by omega), Packet.byte]
    rw [← hcount] at ih
    exact .bits (hbyte.trans hbits) (ih fun k hk ↦ hbytes k (by omega))

theorem EndsAt.same {data : ℕ → ℕ} (h : EndsAt packet data p e)
    (hbytes : ∀ k, p ≤ k → k < e → packet'.getD k 0 = packet.getD k 0) :
    EndsAt packet' data p e := by
  obtain ⟨q, hreading, hend⟩ := h
  have hle := hreading.le
  have hbyte : packet'.byte q = packet.byte q := by
    rw [Packet.byte, hbytes q hle (by omega), Packet.byte]
  exact ⟨q, hreading.same fun k hk hkq ↦ hbytes k hk (by omega), hbyte.symm ▸ hend⟩

theorem EndsAt.congr (h : EndsAt packet data p e)
    (hagree : ∀ k, p ≤ k → packet'.getD k 0 = packet.getD k 0) :
    EndsAt packet' data p e := h.same fun k hk _ ↦ hagree k hk

theorem RecordAt.lt (h : RecordAt packet data count p q) : p < q := by
  induction h with
  | first hname => exact hname.lt
  | later hname _ ih =>
    have hlt := hname.lt
    rw [dataEnd] at ih
    omega

theorem getShort_congr (hagree : ∀ k, p ≤ k → packet'.getD k 0 = packet.getD k 0) (hle : p ≤ q) :
    packet'.getShort q = packet.getShort q := by
  simp only [Packet.getShort, Packet.byte, hagree q hle, hagree (q + 1) (by omega)]

theorem RecordAt.congr (h : RecordAt packet data count p q)
    (hagree : ∀ k, p ≤ k → packet'.getD k 0 = packet.getD k 0) :
    RecordAt packet' data count p q := by
  induction h with
  | first hname => exact .first (hname.congr hagree)
  | @later _ p q _ hname _ ih =>
    have hlt := hname.lt
    have hend : dataEnd packet' q = dataEnd packet q := by
      rw [dataEnd, dataEnd, getShort_congr hagree (by omega)]
    rw [← hend] at ih
    refine .later (hname.congr hagree) (ih fun k hk ↦ hagree k ?_)
    rw [hend, dataEnd] at hk
    omega

end Places

theorem nameEnd_endsAt {qlen p q : ℕ} {log : Bool} {packet : Packet}
    (h : nameEnd qlen log packet p = some q) : EndsAt packet (passedData log) p q := by
  cases log with
  | true => exact @leavesAt_endsAt packet qlen 10 true p [] q h
  | false => exact skipName_endsAt h

/-! ### The change of one record -/

variable {opts : ReplyOptions} {packet packet' : Packet} {p q k : ℕ}

def recordAddr (packet : Packet) (q : ℕ) : UInt32 := UInt32.ofNat (packet.getLong (q + 10))

def AddressChanges (opts : ReplyOptions) (packet : Packet) (q : ℕ) : Prop :=
  isRecord packet q typeA = true ∧ ∃ addr, doctorAddr opts.doctors (recordAddr packet q) = some
    addr ∧ addr ≠ recordAddr packet q

theorem length_putLong (packet : Packet) (p value : ℕ) :
    (packet.putLong p value).length = packet.length :=
  Packet.length_put _ _ _

theorem length_doctored (opts : ReplyOptions) (packet : Packet) (q : ℕ) :
    (doctored opts packet q).length = packet.length := by
  rw [doctored, doctorRecord]
  split_ifs
  · cases doctorAddr opts.doctors (UInt32.ofNat (packet.getLong (q + 10))) with
    | none => rfl
    | some addr => exact (length_putLong _ _ _).trans List.length_set
  · rfl

theorem getD_putLong_of_not (packet : Packet) {p : ℕ} (value : ℕ) (hk : ¬ (p ≤ k ∧ k < p + 4)) :
    (packet.putLong p value).getD k 0 = packet.getD k 0 := by
  rw [Packet.putLong, Packet.getD_put, if_neg fun h ↦ hk ⟨h.1, h.2.1⟩]

theorem getD_doctored (hk : k ≠ 2) (hout : ¬ (q + 10 ≤ k ∧ k < q + 14)) :
    (doctored opts packet q).getD k 0 = packet.getD k 0 := by
  rw [doctored, doctorRecord]
  split_ifs
  · cases doctorAddr opts.doctors (UInt32.ofNat (packet.getLong (q + 10))) with
    | none => rfl
    | some addr =>
      exact (getD_putLong_of_not _ _ hout).trans
        (by rw [Packet.getD_set, if_neg fun h ↦ hk h.1.symm])
  · rfl

theorem and_and_self_flag (byte : UInt8) : byte &&& 0xfb &&& 0xfb = byte &&& 0xfb := by
  rw [UInt8.and_assoc, UInt8.and_self]

theorem flag_doctored (opts : ReplyOptions) (packet : Packet) (q : ℕ) :
    (doctored opts packet q).getD 2 0 &&& 0xfb = packet.getD 2 0 &&& 0xfb := by
  rw [doctored, doctorRecord]
  split_ifs
  · cases doctorAddr opts.doctors (UInt32.ofNat (packet.getLong (q + 10))) with
    | none => rfl
    | some addr =>
      rw [getD_putLong_of_not _ _ (by omega), Packet.getD_set]
      split_ifs
      · exact and_and_self_flag _
      · rfl
  · rfl

theorem getLong_lt (packet : Packet) (p : ℕ) : packet.getLong p < 4294967296 := by
  have h0 := byte_lt packet p
  have h1 := byte_lt packet (p + 1)
  have h2 := byte_lt packet (p + 2)
  have h3 := byte_lt packet (p + 2 + 1)
  rw [Packet.getLong, Packet.getShort, Packet.getShort]
  omega

theorem getLong_putLong {value : ℕ} (hvalue : value < 4294967296) (hlen : p + 4 ≤ packet.length) :
    (packet.putLong p value).getLong p = value := by
  have hbyte : ∀ j < 4, (packet.putLong p value).byte (p + j) =
      ([UInt8.ofNat (value / 16777216), UInt8.ofNat (value / 65536), UInt8.ofNat (value / 256),
        UInt8.ofNat value].getD j 0).toNat := by
    intro j hj
    rw [Packet.byte, Packet.putLong, Packet.getD_put,
      if_pos ⟨by omega, Nat.add_lt_add_left hj p, by omega⟩,
      Nat.add_sub_cancel_left]
  have h0 := hbyte 0 (by omega)
  have h1 := hbyte 1 (by omega)
  have h2 := hbyte 2 (by omega)
  have h3 := hbyte 3 (by omega)
  simp only [List.getD_cons_zero, List.getD_cons_succ, UInt8.toNat_ofNat',
    Nat.add_zero] at h0 h1 h2 h3
  rw [Packet.getLong, Packet.getShort, Packet.getShort, Nat.add_assoc p 2 1, h0, h1, h2, h3]
  omega

theorem getLong_congr (h : ∀ k, p ≤ k → k < p + 4 → packet'.getD k 0 = packet.getD k 0) :
    packet'.getLong p = packet.getLong p := by
  have hbyte : ∀ j < 4, packet'.byte (p + j) = packet.byte (p + j) := fun j hj ↦ by
    rw [Packet.byte, h _ (by omega) (by omega), Packet.byte]
  simp only [Packet.getLong, Packet.getShort, Nat.add_assoc]
  rw [hbyte 1 (by omega), hbyte 2 (by omega), hbyte (2 + 1) (by omega),
    show packet'.byte p = packet.byte p from hbyte 0 (by omega)]

theorem getD_of_getLong {j : ℕ} (h : packet'.getLong p = packet.getLong p) (hj : j < 4) :
    packet'.getD (p + j) 0 = packet.getD (p + j) 0 := by
  have h0 := byte_lt packet p
  have h1 := byte_lt packet (p + 1)
  have h2 := byte_lt packet (p + 2)
  have h3 := byte_lt packet (p + 2 + 1)
  have h0' := byte_lt packet' p
  have h1' := byte_lt packet' (p + 1)
  have h2' := byte_lt packet' (p + 2)
  have h3' := byte_lt packet' (p + 2 + 1)
  rw [Packet.getLong, Packet.getLong, Packet.getShort, Packet.getShort, Packet.getShort,
    Packet.getShort] at h
  apply UInt8.toNat_inj.mp
  change packet'.byte (p + j) = packet.byte (p + j)
  obtain rfl | rfl | rfl | rfl : j = 0 ∨ j = 1 ∨ j = 2 ∨ j = 3 := by omega
  · rw [Nat.add_zero]
    omega
  · omega
  · omega
  · rw [← Nat.add_assoc p 2 1]
    omega

theorem getLong_doctored {addr : UInt32} (htype : isRecord packet q typeA = true)
    (haddr : doctorAddr opts.doctors (recordAddr packet q) = some addr)
    (hlen : q + 14 ≤ packet.length) : (doctored opts packet q).getLong (q + 10) = addr.toNat := by
  rw [doctored, if_pos htype, doctorRecord]
  rw [recordAddr] at haddr
  rw [haddr]
  exact getLong_putLong addr.toNat_lt (by rw [List.length_set]; omega)

theorem exists_getD_ne (h : AddressChanges opts packet q) (hlen : q + 14 ≤ packet.length) :
    ∃ k, q + 10 ≤ k ∧ k < q + 14 ∧ (doctored opts packet q).getD k 0 ≠ packet.getD k 0 := by
  obtain ⟨htype, addr, haddr, hne⟩ := h
  by_contra hsame
  apply hne
  have hlong : (doctored opts packet q).getLong (q + 10) = packet.getLong (q + 10) :=
    getLong_congr fun k hle hlt ↦ by_contra fun hdiffers ↦ hsame ⟨k, hle, hlt, hdiffers⟩
  rw [recordAddr, ← hlong, getLong_doctored htype haddr hlen, UInt32.ofNat_toNat]

theorem getD_doctored_of_not (h : ¬ AddressChanges opts packet q)
    (hlen : isRecord packet q typeA = true → q + 14 ≤ packet.length) (hk : k ≠ 2) :
    (doctored opts packet q).getD k 0 = packet.getD k 0 := by
  by_cases hout : q + 10 ≤ k ∧ k < q + 14
  · by_cases htype : isRecord packet q typeA = true
    · cases haddr : doctorAddr opts.doctors (recordAddr packet q) with
      | none =>
        rw [recordAddr] at haddr
        rw [doctored, if_pos htype, doctorRecord, haddr]
      | some addr =>
        have hsame : addr = recordAddr packet q := by_contra fun hne ↦ h ⟨htype, addr, haddr, hne⟩
        have hlong : (doctored opts packet q).getLong (q + 10) = packet.getLong (q + 10) := by
          rw [getLong_doctored htype haddr (hlen htype), hsame, recordAddr, UInt32.toNat_ofNat',
            Nat.mod_eq_of_lt (getLong_lt _ _)]
        have hbyte := getD_of_getLong hlong (j := k - (q + 10)) (by omega)
        rwa [Nat.add_sub_cancel' hout.1] at hbyte
    · rw [doctored, if_neg htype]
  · exact getD_doctored hk hout

/-! ### What changes -/

/-- Among so many records from an offset on there is an A record at `q`, with an address of four
bytes that lies in one of the ranges. -/
structure AddressAt (opts : ReplyOptions) (packet : Packet) (data : ℕ → ℕ) (count p q : ℕ) :
    Prop where
  record : RecordAt packet data count p q
  type : isRecord packet q typeA = true
  length : packet.getShort (q + 8) = 4
  aliased : (doctorAddr opts.doctors (recordAddr packet q)).isSome = true

/-- Outside the flags, only such addresses differ. -/
def Confined (opts : ReplyOptions) (data : ℕ → ℕ) (count p : ℕ) (packet packet' : Packet) : Prop :=
  ∀ k, k ≠ 2 → packet'.getD k 0 ≠ packet.getD k 0 → ∃ q, AddressAt opts packet data count p q ∧
    q + 10 ≤ k ∧ k < q + 14

def FourBytes (opts : ReplyOptions) (qlen : ℕ) (log : Bool) (packet : Packet) (p : ℕ) : Prop :=
  ∀ q, nameEnd qlen log packet p = some q → q + 14 ≤ qlen → AddressChanges opts packet q →
    packet.getShort (q + 8) = 4

section Changes

variable {data : ℕ → ℕ} {count : ℕ} {last : Packet}

theorem AddressAt.congr (h : AddressAt opts packet data count p q)
    (hagree : ∀ k, p ≤ k → packet'.getD k 0 = packet.getD k 0) :
    AddressAt opts packet' data count p q := by
  have hlt := h.record.lt
  have hlong : packet'.getLong (q + 10) = packet.getLong (q + 10) :=
    getLong_congr fun k hle _ ↦ hagree k (by omega)
  refine ⟨h.record.congr hagree, ?_, ?_, ?_⟩
  · have htype := h.type
    rwa [isRecord, ← getShort_congr hagree (by omega), ← getShort_congr hagree (by omega)] at htype
  · rw [getShort_congr hagree (by omega)]
    exact h.length
  · rw [recordAddr, hlong]
    exact h.aliased

/-- A record is passed, and what follows changes nothing up to the data of the next one: the changes
are confined if those of the record and those of the other records are. -/
theorem confined_succ_iff (hname : EndsAt packet data p q)
    (hlen : isRecord packet q typeA = true → q + 14 ≤ packet.length)
    (hkept : ∀ k, k ≠ 2 → k < dataEnd packet q + 11 →
      last.getD k 0 = (doctored opts packet q).getD k 0) :
    Confined opts data (count + 1) p packet last ↔
      (AddressChanges opts packet q → packet.getShort (q + 8) = 4) ∧
      Confined opts data count (dataEnd packet q) (doctored opts packet q) last := by
  have hlt := hname.lt
  have hend : dataEnd packet q = q + 10 + packet.getShort (q + 8) := rfl
  -- the bytes of the records behind this one are the same before and after
  have hagree : (AddressChanges opts packet q → packet.getShort (q + 8) = 4) →
    ∀ k, dataEnd packet q ≤ k →
      (doctored opts packet q).getD k 0 = packet.getD k 0 := by
    intro hfour k hk
    by_cases hchanges : AddressChanges opts packet q
    · have := hfour hchanges
      exact getD_doctored (by omega) (by omega)
    · exact getD_doctored_of_not hchanges hlen (by omega)
  constructor
  · intro h
    have hfour : AddressChanges opts packet q → packet.getShort (q + 8) = 4 := by
      intro hchanges
      obtain ⟨k, hle, hltk, hdiffers⟩ := exists_getD_ne hchanges (hlen hchanges.1)
      rw [← hkept k (by omega) (by omega)] at hdiffers
      obtain ⟨q', haddress, hle', hlt'⟩ := h k (by omega) hdiffers
      cases haddress.record with
      | first hname' => exact hname.unique hname' ▸ haddress.length
      | later hname' hrest =>
        obtain rfl := hname.unique hname'
        have := hrest.lt
        omega
    refine ⟨hfour, fun k hk hdiffers ↦ ?_⟩
    have hfar : dataEnd packet q + 11 ≤ k := not_lt.mp fun hnear ↦ hdiffers (hkept k hk hnear)
    rw [hagree hfour k (by omega)] at hdiffers
    obtain ⟨q', haddress, hle', hlt'⟩ := h k hk hdiffers
    cases haddress with
    | mk hrecord htype hlength haliased =>
      cases hrecord with
      | first hname' =>
        obtain rfl := hname.unique hname'
        omega
      | later hname' hrest =>
        obtain rfl := hname.unique hname'
        exact ⟨q', (AddressAt.mk hrest htype hlength haliased).congr (hagree hfour), hle', hlt'⟩
  · rintro ⟨hfour, h⟩ k hk hdiffers
    by_cases hsame : last.getD k 0 = (doctored opts packet q).getD k 0
    · rw [hsame] at hdiffers
      have hinside : q + 10 ≤ k ∧ k < q + 14 :=
        by_contra fun hout ↦ hdiffers (getD_doctored hk hout)
      have hchanges : AddressChanges opts packet q :=
        by_contra fun hnot ↦ hdiffers (getD_doctored_of_not hnot hlen hk)
      obtain ⟨htype, addr, haddr, hne⟩ := hchanges
      exact ⟨q, ⟨.first hname, htype, hfour ⟨htype, addr, haddr, hne⟩, by rw [haddr]; rfl⟩, hinside⟩
    · obtain ⟨q', haddress, hle', hlt'⟩ := h k hk hsame
      have haddress' := @AddressAt.congr opts _ packet _ _ _ _ haddress fun k hk ↦
        (hagree hfour k hk).symm
      exact ⟨q', ⟨.later hname haddress'.record, haddress'.type, haddress'.length,
        haddress'.aliased⟩, hle', hlt'⟩

theorem Confined.refl (opts : ReplyOptions) (data : ℕ → ℕ) (count p : ℕ) (packet : Packet) :
    Confined opts data count p packet packet :=
  fun _ _ h ↦ absurd rfl h

end Changes

variable {qlen : ℕ} {named log : Bool}

theorem getD_doDoctor (count : ℕ) : ∀ {p : ℕ} {packet : Packet} {k : ℕ}, k ≠ 2 → k < p + 11 →
    (doDoctor opts qlen named count p packet).1.getD k 0 = packet.getD k 0 := by
  induction count with
  | zero => exact fun _ _ ↦ rfl
  | succ count ih =>
    intro p packet k hk hlt
    rw [doDoctor_succ, doctorStep]
    cases hend : nameEnd qlen (named && opts.optLog) packet p with
    | none => rfl
    | some q =>
      have hless := (nameEnd_endsAt hend).lt
      have hdoctored : (doctored opts packet q).getD k 0 = packet.getD k 0 :=
        getD_doctored hk (by omega)
      dsimp only
      by_cases hshort : isRecord packet q typeA = true ∧ qlen < q + 14
      · rw [if_pos hshort]
      · rw [if_neg hshort]
        by_cases hwhole : dataEnd packet q ≤ qlen
        · rw [if_pos hwhole]
          exact (ih hk (by rw [dataEnd]; omega)).trans hdoctored
        · rw [if_neg hwhole]
          exact hdoctored

theorem length_doDoctor (count : ℕ) : ∀ (p : ℕ) (packet : Packet),
    (doDoctor opts qlen named count p packet).1.length = packet.length := by
  induction count with
  | zero => exact fun _ _ ↦ rfl
  | succ count ih =>
    intro p packet
    rw [doDoctor_succ, doctorStep]
    cases nameEnd qlen (named && opts.optLog) packet p with
    | none => rfl
    | some q =>
      dsimp only
      split_ifs
      · rfl
      · exact (ih _ _).trans (length_doctored opts packet q)
      · exact length_doctored opts packet q

theorem flag_doDoctor (count : ℕ) : ∀ (p : ℕ) (packet : Packet),
    (doDoctor opts qlen named count p packet).1.getD 2 0 &&& 0xfb = packet.getD 2 0 &&& 0xfb := by
  induction count with
  | zero => exact fun _ _ ↦ rfl
  | succ count ih =>
    intro p packet
    rw [doDoctor_succ, doctorStep]
    cases nameEnd qlen (named && opts.optLog) packet p with
    | none => rfl
    | some q =>
      dsimp only
      split_ifs
      · rfl
      · exact (ih _ _).trans (flag_doctored opts packet q)
      · exact flag_doctored opts packet q

theorem confined_doDoctor (count : ℕ) : ∀ {p : ℕ} {packet : Packet}, qlen ≤ packet.length →
    (Confined opts (passedData (named && opts.optLog)) count p packet
      (doDoctor opts qlen named count p packet).1 ↔
      ∀ qs p', Passes opts qlen (named && opts.optLog) packet p qs p' → qs.length < count →
        FourBytes opts qlen (named && opts.optLog) (qs.foldl (doctored opts) packet) p') := by
  induction count with
  | zero => exact fun _ ↦ ⟨fun _ _ _ _ h ↦ absurd h (Nat.not_lt_zero _), fun _ ↦ .refl _ _ _ _ _⟩
  | succ count ih =>
    intro p packet hlen
    rw [doDoctor_succ]
    cases hstep : doctorStep opts qlen (named && opts.optLog) packet p with
    | mk packet' next =>
      rw [forall_passes_succ hstep]
      rw [doctorStep] at hstep
      cases hend : nameEnd qlen (named && opts.optLog) packet p with
      | none =>
        rw [hend] at hstep
        cases hstep
        refine ⟨fun _ ↦ ⟨fun q hq ↦ ?_, fun _ h ↦ absurd h (by simp)⟩, fun _ ↦ .refl _ _ _ _ _⟩
        exact absurd (hend.symm.trans hq) (by simp)
      | some q =>
        rw [hend] at hstep
        dsimp only at hstep
        by_cases hshort : isRecord packet q typeA = true ∧ qlen < q + 14
        · rw [if_pos hshort] at hstep
          cases hstep
          refine ⟨fun _ ↦
            ⟨fun q' hq hinside ↦ ?_, fun _ h ↦ absurd h (by simp)⟩, fun _ ↦ .refl _ _ _ _ _⟩
          cases hend.symm.trans hq
          omega
        · rw [if_neg hshort] at hstep
          have hinside : isRecord packet q typeA = true → q + 14 ≤ qlen :=
            fun htype ↦ not_lt.mp fun h ↦ hshort ⟨htype, h⟩
          have hfour : FourBytes opts qlen (named && opts.optLog) packet p ↔
              (AddressChanges opts packet q → packet.getShort (q + 8) = 4) := by
            constructor
            · exact fun h hchanges ↦ h q hend (hinside hchanges.1) hchanges
            · intro h q' hq _ hchanges
              cases hend.symm.trans hq
              exact h hchanges
          have hname := nameEnd_endsAt hend
          have hplace : isRecord packet q typeA = true → q + 14 ≤ packet.length :=
            fun h ↦ (hinside h).trans hlen
          by_cases hwhole : dataEnd packet q ≤ qlen
          · rw [if_pos hwhole] at hstep
            cases hstep
            rw [confined_succ_iff hname hplace fun k hk hlt ↦ getD_doDoctor count hk hlt, hfour,
              ih (hlen.trans (length_doctored opts packet q).ge)]
            exact and_congr_right fun _ ↦ ⟨fun h _ heq ↦ Option.some.inj heq ▸ h, fun h ↦ h _ rfl⟩
          · rw [if_neg hwhole] at hstep
            cases hstep
            rw [confined_succ_iff hname hplace fun _ _ _ ↦ rfl, hfour]
            exact and_congr_right fun _ ↦ ⟨fun _ _ h ↦ absurd h (by simp), fun _ ↦ .refl _ _ _ _ _⟩

/-! ### The frame -/

/-- `do_doctor` returns, accesses the packet and the name inside their sizes, and changes at most
the AA flag and the addresses of A records in the ranges. -/
def DoctorFrames (opts : ReplyOptions) (qlen : ℕ) (named : Bool) (count p : ℕ) (packet : Packet)
    (name : ℕ → UInt8) : Prop :=
  ∃ next s, doctorSection opts qlen named count p ⟨packet, name, [], [], []⟩ = some (next, s) ∧
    s.Inside qlen ∧
    s.packet.length = packet.length ∧ s.packet.getD 2 0 &&& 0xfb = packet.getD 2 0 &&& 0xfb ∧
    Confined opts (passedData (named && opts.optLog)) count p packet s.packet

/-- `do_doctor` respects the frame if, for every record that it comes to, what is accessed for the
log is inside the packet, and an address that is replaced by another one has four bytes. -/
theorem doctorFrames_iff (opts : ReplyOptions) {qlen : ℕ} (named : Bool) (count p : ℕ)
    {packet : Packet} (name : ℕ → UInt8) (hlen : qlen ≤ packet.length) :
    DoctorFrames opts qlen named count p packet name ↔
      ∀ qs p', Passes opts qlen (named && opts.optLog) packet p qs p' → qs.length < count →
        ((named && opts.optLog) = true → LoggedInside qlen (qs.foldl (doctored opts) packet) p') ∧
          FourBytes opts qlen (named && opts.optLog) (qs.foldl (doctored opts) packet) p' := by
  obtain ⟨s, hrun, hpacket, hinside⟩ := @doctorSection_spec opts qlen named count p
    ⟨packet, name, [], [], []⟩
  have hstart : Doctoring.Inside qlen ⟨packet, name, [], [], []⟩ :=
    ⟨fun _ h ↦ absurd h List.not_mem_nil, fun _ h ↦ absurd h List.not_mem_nil, fun _ h ↦
      absurd h List.not_mem_nil⟩
  have hconfined := @confined_doDoctor opts qlen named count p packet hlen
  rw [← hpacket] at hconfined
  constructor
  · rintro ⟨next, t, hrun', hsafe, -, -, hchanges⟩ qs p' hpasses hcount
    rw [hrun] at hrun'
    cases hrun'
    exact ⟨fun hlog ↦ (hinside.mp hsafe).2 hlog qs p' hpasses hcount,
      hconfined.mp hchanges qs p' hpasses hcount⟩
  · intro h
    refine ⟨_, s, hrun, ?_, ?_, ?_, ?_⟩
    · exact hinside.mpr ⟨hstart, fun hlog qs p' hpasses hcount ↦ (h qs p' hpasses hcount).1 hlog⟩
    · rw [hpacket]
      exact length_doDoctor count p packet
    · rw [hpacket]
      exact flag_doDoctor count p packet
    · exact hconfined.mpr fun qs p' hpasses hcount ↦ (h qs p' hpasses hcount).2

def aliasOptions : ReplyOptions :=
  ⟨[⟨0x01020304, 0, 0x05060708, 0xffffffff⟩], false, false, false, 0, 0⟩

def aliasedReply : Packet := List.replicate 12 0 ++ [0, 0, 1, 0, 1, 0, 0, 0, 0, 0, 4, 1, 2, 3, 4]

/-- The address is replaced in its four bytes. -/
theorem doctorFrames_iff_address : doDoctor aliasOptions 27 true 1 12 aliasedReply =
    (aliasedReply.take 23 ++ [5, 6, 7, 8], some 27) ∧
    DoctorFrames aliasOptions 27 true 1 12 aliasedReply fun _ ↦ 0 := by
  refine ⟨by decide +kernel, (doctorFrames_iff aliasOptions true 1 12 (fun _ ↦
    0) (by decide)).mpr fun qs p' hpasses hcount ↦ ?_⟩
  obtain rfl : qs = [] := List.length_eq_zero_iff.mp (by omega)
  obtain rfl := passes_nil_iff.mp hpasses
  refine ⟨fun hlog ↦ absurd hlog (by decide), fun q hq _ _ ↦ ?_⟩
  have hplace : nameEnd 27 false aliasedReply 12 = some 13 := by decide +kernel
  cases hplace.symm.trans hq
  decide +kernel

def logOptions : ReplyOptions := ⟨[], true, false, false, 0, 0⟩

/-- A header, and a TXT record whose data is the length of a string of five characters. -/
def textReply : Packet := List.replicate 12 0 ++ [0, 0, 16, 0, 1, 0, 0, 0, 0, 0, 1, 5] ++ [65, 66]

/-- The letters behind the packet are read, and written. -/
theorem not_doctorFrames_text : ¬ DoctorFrames logOptions 24 true 1 12 textReply fun _ ↦ 0 := by
  rintro ⟨next, s, hrun, hinside, -⟩
  have hall : (doctorSection logOptions 24 true 1 12 ⟨textReply, fun _ ↦ 0, [], [], []⟩).map
    (fun result ↦ result.2.writes) =
      some [23, 24, 25, 25, 24, 23] := by
    decide +kernel
  rw [hrun] at hall
  have hwrites : s.writes = [23, 24, 25, 25, 24, 23] := Option.some.inj hall
  exact absurd (hinside.writes 24 (by rw [hwrites]; decide)) (Nat.lt_irrefl 24)

end CrossBreeder.Dnsmasq
