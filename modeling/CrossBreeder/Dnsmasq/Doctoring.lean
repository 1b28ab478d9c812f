import CrossBreeder.Dnsmasq.NameAccesses
import CrossBreeder.Dnsmasq.Rebinding
import Mathlib.Data.List.GetD

/-!
# The accesses of the doctor

`do_doctor` with a record of the bytes that it reads and writes in the packet. With a name for the
log it also writes the strings of TXT records to the log: it moves the characters of a string one
place to the front, ends them with a zero, and puts them back (`packet_logString`). The packet and
the result are those of `doDoctor` (`doctorSection_spec`).
-/

namespace CrossBreeder.Dnsmasq

open Foundation

/-! ### The function -/

/-- `isprint` in the C locale. -/
def isprint (c : UInt8) : Bool := 32 ≤ c ∧ c < 127

structure Doctoring where
  packet : Packet
  name : ℕ → UInt8
  reads : List ℕ
  writes : List ℕ
  nameWrites : List ℕ

namespace Doctoring

def look (p len : ℕ) (s : Doctoring) : Doctoring := { s with reads := List.range' p len ++ s.reads }

/-- `*p = byte`. -/
def store (p : ℕ) (byte : UInt8) (s : Doctoring) : Doctoring :=
  { s with packet := s.packet.set p byte, writes := p :: s.writes }

def copy (p : ℕ) (bytes : List UInt8) (s : Doctoring) : Doctoring :=
  { s with packet := s.packet.put p bytes, writes := List.range' p bytes.length ++ s.writes }

/-- The characters of a string go one place to the front, up to one that cannot be printed: how many
they are. -/
def sanitise : ℕ → ℕ → Doctoring → ℕ × Doctoring
  | 0, _, s => (0, s)
  | len + 1, p2, s =>
    let s := s.look (p2 + 1) 1
    if isprint (s.packet.getD (p2 + 1) 0) then
      let (i, s) := ((s.look (p2 + 1) 1).store p2 (s.packet.getD (p2 + 1) 0)).sanitise len (p2 + 1)
      (i + 1, s)
    else (0, s)

def logString (p1 : ℕ) (s : Doctoring) : Doctoring :=
  let len := s.packet.getD p1 0
  let (i, s) := (s.look p1 1).sanitise len.toNat p1
  let s := (s.store (p1 + i) 0).look p1 (i + 1)
  ((s.look p1 i).copy (p1 + 1) (s.packet.slice p1 i)).store p1 len

def stringRound (last : ℕ) (s : ℕ × Doctoring) : Round (ℕ × Doctoring) Doctoring :=
  if s.1 < last then .again (s.1 + s.2.packet.byte s.1 + 1, s.2.logString s.1) else .ret s.2

/-- The strings in the data of a TXT record. Every round passes a byte at least. -/
def logStrings (p rdlen : ℕ) (s : Doctoring) : Option Doctoring :=
  runRounds (stringRound (p + rdlen)) (rdlen + 1) (p, s)

def replaceAddress (opts : ReplyOptions) (p : ℕ) (s : Doctoring) : Doctoring :=
  let s := s.look p 4
  match doctorAddr opts.doctors (UInt32.ofNat (s.packet.getLong p)) with
  | none => s
  | some addr => ((s.look 2 1).store 2 (s.packet.getD 2 0 &&& 0xfb)).copy p
      [UInt8.ofNat (addr.toNat / 16777216), UInt8.ofNat (addr.toNat / 65536),
        UInt8.ofNat (addr.toNat / 256), UInt8.ofNat addr.toNat]

end Doctoring

/-- The positions that the loop of `skip_name` reads. -/
def skipNameReads (packet : Packet) (plen : ℕ) : ℕ → ℕ → List ℕ
  | 0, _ => []
  | fuel + 1, ansp =>
    if checkLen plen ansp 1 = false then []
    else
      let l := packet.byte ansp
      if l &&& 0xc0 = 0xc0 then [ansp]
      else if l &&& 0xc0 = 0x80 then [ansp]
      else if l &&& 0xc0 = 0x40 then
        if checkLen plen ansp 2 = false ∨ l &&& 0x3f ≠ 1 then [ansp]
        else
          let count := packet.byte (ansp + 1)
          ansp :: (ansp + 1) ::
            skipNameReads packet plen fuel (ansp + 2 + if count = 0 then 32
              else (count - 1) / 8 + 1)
      else
        let len := l &&& 0x3f
        if checkLen plen (ansp + 1) len = false then [ansp]
        else if len = 0 then [ansp]
        else ansp :: skipNameReads packet plen fuel (ansp + 1 + len)

/-- The name of a record is extracted for the log, or skipped: where it ends. -/
def doctorName (qlen : ℕ) (log : Bool) (p : ℕ) (s : Doctoring) : Option (Option ℕ × Doctoring) :=
  if log then
    (parseName s.packet qlen p true 10 s.name (nameFuel qlen)).map fun (value, t) ↦
      (if value = 0 then none else some t.pp,
        { s with name := t.name, reads := t.reads ++ s.reads, nameWrites := t.writes ++
          s.nameWrites })
  else
    some (skipName s.packet qlen p 10,
      { s with reads := skipNameReads s.packet qlen (qlen + 1) p ++ s.reads })

/-- The data of a record, and whether the packet has as much as is asked for. -/
def doctorData (opts : ReplyOptions) (qlen : ℕ) (log : Bool) (qtype qclass rdlen p : ℕ)
    (s : Doctoring) : Option (Bool × Doctoring) :=
  if qclass = classIn ∧ qtype = typeA then
    if checkLen qlen p 4 = false then some (false, s) else some (true, s.replaceAddress opts p)
  else if qtype = typeTxt ∧ log then
    if checkLen qlen p rdlen = false then some (false, s) else (s.logStrings p rdlen).map fun s ↦
      (true, s)
  else some (true, s)

/-- One round of the loop of `do_doctor`: where the record ends, unless the packet is bad. -/
def doctorRound (opts : ReplyOptions) (qlen : ℕ) (log : Bool) (p : ℕ) (s : Doctoring) :
    Option (Option ℕ × Doctoring) :=
  match doctorName qlen log p s with
  | some (some p, s) =>
    let qtype := s.packet.getShort p
    let qclass := s.packet.getShort (p + 2)
    let rdlen := s.packet.getShort (p + 8)
    let s := ((s.look p 2).look (p + 2) 2).look (p + 8) 2
    let p := p + 10
    (doctorData opts qlen log qtype qclass rdlen p s).map fun (whole, s) ↦
      (if whole ∧ checkLen qlen p rdlen then some (p + rdlen) else none, s)
  | other => other

/-- `do_doctor` with its accesses. Names are extracted if there is a name for the log. -/
def doctorSection (opts : ReplyOptions) (qlen : ℕ) (named : Bool) :
    ℕ → ℕ → Doctoring → Option (Option ℕ × Doctoring)
  | 0, p, s => some (some p, s)
  | count + 1, p, s => match doctorRound opts qlen (named && opts.optLog) p s with
    | some (some p, s) => doctorSection opts qlen named count p s
    | other => other

/-! ### Accesses -/

namespace Doctoring

variable {qlen p len : ℕ} {s : Doctoring}

/-- The packet is read and written inside its length, and the name inside its size. -/
structure Inside (qlen : ℕ) (s : Doctoring) : Prop where
  reads : ∀ k ∈ s.reads, k < qlen
  writes : ∀ k ∈ s.writes, k < qlen
  nameWrites : ∀ k ∈ s.nameWrites, k < maxDname

theorem forall_range'_append {list : List ℕ} : (∀ k ∈ List.range' p len ++ list, k < qlen) ↔
    (∀ k ∈ list, k < qlen) ∧ (len = 0 ∨ p + len ≤ qlen) := by
  rw [List.forall_mem_append, and_comm]
  refine and_congr_right fun _ ↦ ⟨fun h ↦ ?_, fun h k hk ↦ ?_⟩
  · rcases Nat.eq_zero_or_pos len with hzero | hpos
    · exact Or.inl hzero
    · have := h (p + (len - 1)) (List.mem_range'_1.mpr (by omega))
      exact Or.inr (by omega)
  · rw [List.mem_range'_1] at hk
    omega

theorem inside_look : (s.look p len).Inside qlen ↔ s.Inside qlen ∧ (len = 0 ∨ p + len ≤ qlen) := by
  constructor
  · rintro ⟨hreads, hwrites, hname⟩
    obtain ⟨hreads, hlen⟩ := forall_range'_append.mp hreads
    exact ⟨⟨hreads, hwrites, hname⟩, hlen⟩
  · rintro ⟨⟨hreads, hwrites, hname⟩, hlen⟩
    exact ⟨forall_range'_append.mpr ⟨hreads, hlen⟩, hwrites, hname⟩

theorem inside_store {byte : UInt8} : (s.store p byte).Inside qlen ↔ s.Inside qlen ∧ p < qlen := by
  constructor
  · rintro ⟨hreads, hwrites, hname⟩
    obtain ⟨hp, hwrites⟩ := List.forall_mem_cons.mp hwrites
    exact ⟨⟨hreads, hwrites, hname⟩, hp⟩
  · rintro ⟨⟨hreads, hwrites, hname⟩, hp⟩
    exact ⟨hreads, List.forall_mem_cons.mpr ⟨hp, hwrites⟩, hname⟩

theorem inside_copy {bytes : List UInt8} :
    (s.copy p bytes).Inside qlen ↔ s.Inside qlen ∧
      (bytes.length = 0 ∨ p + bytes.length ≤ qlen) := by
  constructor
  · rintro ⟨hreads, hwrites, hname⟩
    obtain ⟨hwrites, hlen⟩ := forall_range'_append.mp hwrites
    exact ⟨⟨hreads, hwrites, hname⟩, hlen⟩
  · rintro ⟨⟨hreads, hwrites, hname⟩, hlen⟩
    exact ⟨hreads, forall_range'_append.mpr ⟨hwrites, hlen⟩, hname⟩

@[simp] theorem packet_look (p len : ℕ) (s : Doctoring) : (s.look p len).packet = s.packet := rfl

@[simp] theorem packet_store (p : ℕ) (byte : UInt8) (s : Doctoring) :
    (s.store p byte).packet = s.packet.set p byte := rfl

@[simp] theorem packet_copy (p : ℕ) (bytes : List UInt8) (s : Doctoring) :
    (s.copy p bytes).packet = s.packet.put p bytes := rfl

end Doctoring

/-! ### Writing in a packet -/

namespace Packet

theorem getD_set (packet : Packet) (p k : ℕ) (byte : UInt8) :
    (packet.set p byte).getD k 0 = if p = k ∧ k < packet.length then byte else packet.getD k 0 := by
  simp only [List.getD_eq_getElem?_getD, List.getElem?_set]
  by_cases hp : p = k
  · subst hp
    by_cases hlen : p < packet.length
    · rw [if_pos rfl, if_pos hlen, if_pos ⟨rfl, hlen⟩]
      rfl
    · rw [if_pos rfl, if_neg hlen, if_neg fun h ↦ hlen h.2, List.getElem?_eq_none (by omega)]
  · rw [if_neg hp, if_neg fun h ↦ hp h.1]

theorem length_put (bytes : List UInt8) : ∀ (packet : Packet) (p : ℕ),
    (packet.put p bytes).length = packet.length := by
  induction bytes with
  | nil => exact fun _ _ ↦ rfl
  | cons byte bytes ih => exact fun packet p ↦ (ih _ _).trans List.length_set

theorem getD_put (k : ℕ) (bytes : List UInt8) : ∀ (packet : Packet) (p : ℕ),
    (packet.put p bytes).getD k 0 =
    if p ≤ k ∧ k < p + bytes.length ∧ k < packet.length then
      bytes.getD (k - p) 0 else packet.getD k 0 := by
  induction bytes with
  | nil =>
    intro packet p
    rw [if_neg (by simp only [List.length_nil]; omega)]
    rfl
  | cons byte bytes ih =>
    intro packet p
    rw [Packet.put, ih, getD_set, List.length_set, List.length_cons]
    by_cases hfirst : p = k
    · subst hfirst
      rw [if_neg (by omega)]
      by_cases hlen : p < packet.length
      · rw [if_pos ⟨rfl, hlen⟩, if_pos (by omega), Nat.sub_self, List.getD_cons_zero]
      · rw [if_neg fun h ↦ hlen h.2, if_neg (by omega)]
    · by_cases hrest : p + 1 ≤ k ∧ k < p + 1 + bytes.length ∧ k < packet.length
      · rw [if_pos hrest,
          if_pos (by omega), show k - p = k - (p + 1) + 1 by omega, List.getD_cons_succ]
      · rw [if_neg hrest, if_neg fun h ↦ hfirst h.1, if_neg (by omega)]

theorem getD_slice (packet : Packet) {p len j : ℕ} (h : j < len) :
    (packet.slice p len).getD j 0 = packet.getD (p + j) 0 := by
  simp [Packet.slice, List.getD_eq_getElem?_getD, List.getElem?_map, List.getElem?_range h]

theorem eq_of_getD {packet packet' : Packet} (hlen : packet.length = packet'.length)
    (h : ∀ k < packet.length, packet.getD k 0 = packet'.getD k 0) : packet = packet' := by
  refine List.ext_getElem hlen fun k hk hk' ↦ ?_
  have hbyte := h k hk
  rwa [List.getD_eq_getElem _ _ hk, List.getD_eq_getElem _ _ hk'] at hbyte

theorem lt_length_of_isprint {packet : Packet} {k : ℕ} (h : isprint (packet.getD k 0) = true) :
    k < packet.length := by
  by_contra hlen
  rw [List.getD_eq_default _ _ (not_lt.mp hlen)] at h
  exact absurd h (by decide)

end Packet

/-! ### Strings -/

/-- A string ends inside the packet, or it has a character inside the packet that cannot be printed.
-/
def StringInside (packet : Packet) (qlen p1 : ℕ) : Prop :=
  p1 + packet.byte p1 < qlen ∨
    ∃ k, p1 < k ∧ k ≤ p1 + packet.byte p1 ∧ k < qlen ∧ isprint (packet.getD k 0) = false

inductive StringAt (packet : Packet) (last : ℕ) : ℕ → ℕ → Prop
  | here {p : ℕ} (hlast : p < last) : StringAt packet last p p
  | later {p p1 : ℕ} (hlast : p < last) (hrest : StringAt packet last (p + packet.byte p + 1) p1) :
      StringAt packet last p p1

variable {s : Doctoring}

namespace Doctoring

variable {qlen : ℕ}

/-- So many characters of a string can be printed, and they are moved to the front. -/
structure Sanitised (packet : Packet) (len p2 i : ℕ) (packet' : Packet) : Prop where
  le : i ≤ len
  printed : ∀ j < i, isprint (packet.getD (p2 + 1 + j) 0) = true
  stopped : i < len → isprint (packet.getD (p2 + 1 + i) 0) = false
  length : packet'.length = packet.length
  moved : ∀ k, packet'.getD k 0 = if p2 ≤ k ∧ k < p2 + i then packet.getD (k + 1) 0
    else packet.getD k 0

theorem sanitise_of_isprint {p2 : ℕ} (h : isprint (s.packet.getD (p2 + 1) 0) = true) (len : ℕ) :
    s.sanitise (len + 1) p2 =
      ((((((s.look (p2 + 1) 1).look (p2 + 1) 1).store p2 (s.packet.getD (p2 + 1) 0)).sanitise len
      (p2 + 1)).1 + 1),
        (((s.look (p2 + 1) 1).look (p2 + 1) 1).store p2 (s.packet.getD (p2 + 1) 0)).sanitise len
        (p2 + 1) |>.2) := by
  rw [sanitise]
  exact if_pos h

theorem sanitise_of_not_isprint {p2 : ℕ} (h : ¬ isprint (s.packet.getD (p2 + 1) 0) = true)
    (len : ℕ) : s.sanitise (len + 1) p2 = (0, s.look (p2 + 1) 1) := by
  rw [sanitise]
  exact if_neg h

theorem sanitise_spec (len : ℕ) : ∀ (p2 : ℕ) (s : Doctoring),
    Sanitised s.packet len p2 (s.sanitise len p2).1 (s.sanitise len p2).2.packet := by
  induction len with
  | zero =>
    refine fun p2 s ↦ ⟨le_rfl, fun j hj ↦ absurd hj (Nat.not_lt_zero j), fun h ↦
      absurd h (Nat.lt_irrefl 0), rfl, fun k ↦ ?_⟩
    rw [if_neg (by rw [sanitise]; omega)]
    rfl
  | succ len ih =>
    intro p2 s
    by_cases hprint : isprint (s.packet.getD (p2 + 1) 0) = true
    · rw [sanitise_of_isprint hprint]
      have hlen := Packet.lt_length_of_isprint hprint
      have h :=
        ih (p2 + 1) (((s.look (p2 + 1) 1).look (p2 + 1) 1).store p2 (s.packet.getD (p2 + 1) 0))
      generalize (((s.look (p2 + 1) 1).look (p2 + 1) 1).store p2
        (s.packet.getD (p2 + 1) 0)).sanitise len (p2 + 1) = t at h ⊢
      obtain ⟨i, t⟩ := t
      have hbehind : ∀ k, p2 < k →
        (s.packet.set p2 (s.packet.getD (p2 + 1) 0)).getD k 0 = s.packet.getD k 0 :=
        fun k hk ↦ by rw [Packet.getD_set, if_neg (by omega)]
      refine ⟨Nat.succ_le_succ h.le, fun j hj ↦ ?_, fun hi ↦ ?_, h.length.trans List.length_set,
        fun k ↦ ?_⟩
      · cases j with
        | zero => exact hprint
        | succ j =>
          have hj := h.printed j (by omega)
          rw [packet_store, packet_look, packet_look, hbehind _ (by omega)] at hj
          rwa [show p2 + 1 + (j + 1) = p2 + 1 + 1 + j by omega]
      · have hstop := h.stopped (by omega)
        rw [packet_store, packet_look, packet_look, hbehind _ (by omega)] at hstop
        rwa [show p2 + 1 + (i + 1) = p2 + 1 + 1 + i by omega]
      · rw [h.moved k, packet_store, packet_look, packet_look]
        by_cases hk : p2 + 1 ≤ k ∧ k < p2 + 1 + i
        · rw [if_pos hk, if_pos (by omega), hbehind _ (by omega)]
        · rw [if_neg hk, Packet.getD_set]
          by_cases hfirst : p2 = k
          · subst hfirst
            rw [if_pos ⟨rfl, by omega⟩, if_pos (by omega)]
          · rw [if_neg fun h ↦ hfirst h.1, if_neg (by omega)]
    · rw [sanitise_of_not_isprint hprint]
      refine ⟨Nat.zero_le _, fun j hj ↦ absurd hj (Nat.not_lt_zero j), fun _ ↦
        by simpa using hprint, rfl, fun k ↦ ?_⟩
      rw [if_neg (by omega)]
      rfl

theorem inside_sanitise (len : ℕ) : ∀ (p2 : ℕ) (s : Doctoring), (s.sanitise len p2).2.Inside qlen ↔
    s.Inside qlen ∧ (len = 0 ∨ p2 + min ((s.sanitise len p2).1 + 1) len < qlen) := by
  induction len with
  | zero => exact fun p2 s ↦ ⟨fun h ↦ ⟨h, Or.inl rfl⟩, And.left⟩
  | succ len ih =>
    intro p2 s
    by_cases hprint : isprint (s.packet.getD (p2 + 1) 0) = true
    · rw [sanitise_of_isprint hprint]
      have h :=
        ih (p2 + 1) (((s.look (p2 + 1) 1).look (p2 + 1) 1).store p2 (s.packet.getD (p2 + 1) 0))
      generalize (((s.look (p2 + 1) 1).look (p2 + 1) 1).store p2
        (s.packet.getD (p2 + 1) 0)).sanitise len (p2 + 1) = t at h ⊢
      rw [h, inside_store, inside_look, inside_look, and_assoc, and_assoc, and_assoc]
      refine and_congr_right fun _ ↦ ?_
      omega
    · rw [sanitise_of_not_isprint hprint]
      rw [inside_look]
      refine and_congr_right fun _ ↦ ?_
      omega

@[simp] theorem packet_logString (p1 : ℕ) (s : Doctoring) : (s.logString p1).packet = s.packet := by
  have h := sanitise_spec (s.packet.getD p1 0).toNat p1 (s.look p1 1)
  rw [logString]
  generalize (s.look p1 1).sanitise (s.packet.getD p1 0).toNat p1 = t at h ⊢
  obtain ⟨i, t⟩ := t
  dsimp only [packet_look] at h ⊢
  have hlength : ((Packet.put (t.packet.set (p1 + i) 0) (p1 + 1)
      (Packet.slice (t.packet.set (p1 + i) 0) p1 i)).set p1
      (s.packet.getD p1 0)).length = s.packet.length := by
    rw [List.length_set, Packet.length_put, List.length_set, h.length]
  refine Packet.eq_of_getD hlength fun k hk ↦ ?_
  simp only [packet_store, packet_copy, packet_look] at hk ⊢
  rw [hlength] at hk
  rw [Packet.getD_set, Packet.length_put, List.length_set, h.length]
  by_cases hfirst : p1 = k
  · rw [if_pos ⟨hfirst, hk⟩, hfirst]
  rw [if_neg fun h ↦ hfirst h.1, Packet.getD_put, length_slice, List.length_set, h.length]
  by_cases hmoved : p1 + 1 ≤ k ∧ k < p1 + 1 + i
  · rw [if_pos ⟨hmoved.1, hmoved.2, hk⟩,
      Packet.getD_slice _ (by omega), Packet.getD_set, if_neg (by omega), h.moved,
      if_pos (by omega), show p1 + (k - (p1 + 1)) + 1 = k by omega]
  · rw [if_neg fun h ↦ hmoved ⟨h.1, h.2.1⟩, Packet.getD_set,
      if_neg (by omega), h.moved, if_neg (by omega)]

theorem inside_logString {p1 : ℕ} :
    (s.logString p1).Inside qlen ↔ s.Inside qlen ∧ StringInside s.packet qlen p1 := by
  have h := sanitise_spec (s.packet.getD p1 0).toNat p1 (s.look p1 1)
  have hinside := @inside_sanitise qlen (s.packet.getD p1 0).toNat p1 (s.look p1 1)
  rw [logString, StringInside, Packet.byte]
  generalize (s.look p1 1).sanitise (s.packet.getD p1 0).toNat p1 = t at h hinside ⊢
  obtain ⟨i, t⟩ := t
  dsimp only [packet_look] at h hinside ⊢
  have hle := h.le
  rw [inside_store, inside_copy, inside_look, inside_look, inside_store, hinside,
    inside_look, length_slice]
  constructor
  · rintro ⟨⟨⟨⟨⟨⟨⟨hs, hp1⟩, hrun⟩, hend⟩, hlog⟩, -⟩, -⟩, -⟩
    refine ⟨hs, ?_⟩
    by_cases hwhole : i < (s.packet.getD p1 0).toNat
    · exact Or.inr ⟨p1 + 1 + i, by omega, by omega, by omega, h.stopped hwhole⟩
    · exact Or.inl (by omega)
  · rintro ⟨hs, hend⟩
    have hp1 : p1 < qlen := by
      rcases hend with hend | ⟨k, hk, -, hlt, -⟩ <;> omega
    have hrun : p1 + min (i + 1) (s.packet.getD p1 0).toNat < qlen := by
      rcases hend with hend | ⟨k, hk, hle, hlt, hstop⟩
      · omega
      · -- the character that cannot be printed is not behind the ones that can
        have hi : i ≤ k - (p1 + 1) := by
          by_contra hmore
          have hprint := h.printed (k - (p1 + 1)) (by omega)
          rw [show p1 + 1 + (k - (p1 + 1)) = k by omega, hstop] at hprint
          exact Bool.false_ne_true hprint
        omega
    exact ⟨⟨⟨⟨⟨⟨⟨hs,
      Or.inr (by omega)⟩, Or.inr hrun⟩, by omega⟩, Or.inr (by omega)⟩, by omega⟩, by omega⟩, hp1⟩

theorem logStrings_spec (p rdlen : ℕ) (s : Doctoring) :
    ∃ t, s.logStrings p rdlen = some t ∧ t.packet = s.packet ∧
    (t.Inside qlen ↔ s.Inside qlen ∧ ∀ p1, StringAt s.packet (p + rdlen) p p1 →
      StringInside s.packet qlen p1) := by
  have hsize : ∀ v v' : ℕ × Doctoring, stringRound (p + rdlen) v = .again v' →
      p + rdlen - v'.1 < p + rdlen - v.1 := by
    intro v v' hround
    rw [stringRound] at hround
    split_ifs at hround with hlast
    cases hround
    omega
  obtain ⟨t, hrun⟩ := exists_runRounds (fun v : ℕ × Doctoring ↦ p + rdlen - v.1) hsize (rdlen + 1)
    (s := (p, s)) (by dsimp only; omega)
  have hreturns := returns_of_runRounds _ hrun
  refine ⟨t, hrun, ?_⟩
  clear hrun hsize
  generalize hstart : (p, s) = v at hreturns
  generalize hlast : p + rdlen = last at hreturns ⊢
  clear hlast
  induction hreturns generalizing p s with
  | ret hbody =>
    subst hstart
    rw [stringRound] at hbody
    split_ifs at hbody with hless
    cases hbody
    refine ⟨rfl, ⟨fun h ↦ ⟨h, fun p1 hstring ↦ ?_⟩, And.left⟩⟩
    cases hstring with
    | here h => exact absurd h hless
    | later h => exact absurd h hless
  | again hbody _ ih =>
    subst hstart
    rw [stringRound] at hbody
    split_ifs at hbody with hless
    cases hbody
    obtain ⟨hpacket, hinside⟩ := ih _ _ rfl
    rw [packet_logString] at hpacket hinside
    refine ⟨hpacket, ?_⟩
    rw [hinside, inside_logString, and_assoc]
    refine and_congr_right fun _ ↦
      ⟨?_, fun h ↦ ⟨h p (.here hless), fun p1 hstring ↦ h p1 (.later hless hstring)⟩⟩
    rintro ⟨hfirst, hrest⟩ p1 hstring
    cases hstring with
    | here => exact hfirst
    | later _ hstring => exact hrest p1 hstring

theorem packet_replaceAddress (opts : ReplyOptions) (p : ℕ) (s : Doctoring) :
    (s.replaceAddress opts p).packet = doctorRecord opts s.packet p := by
  rw [replaceAddress, doctorRecord]
  dsimp only [packet_look]
  cases doctorAddr opts.doctors (UInt32.ofNat (s.packet.getLong p)) <;> rfl

theorem inside_replaceAddress (opts : ReplyOptions) {p : ℕ} (hp : 2 < qlen) :
    (s.replaceAddress opts p).Inside qlen ↔ s.Inside qlen ∧ p + 4 ≤ qlen := by
  rw [replaceAddress]
  dsimp only [packet_look]
  cases doctorAddr opts.doctors (UInt32.ofNat (s.packet.getLong p)) with
  | none =>
    rw [inside_look]
    exact and_congr_right fun _ ↦ by omega
  | some addr =>
    rw [inside_copy, inside_store, inside_look, inside_look, List.length_cons, List.length_cons,
      List.length_cons, List.length_singleton, and_assoc, and_assoc, and_assoc]
    exact and_congr_right fun _ ↦ by omega

end Doctoring

/-! ### One round -/

theorem skipNameReads_lt (packet : Packet) (plen fuel : ℕ) :
    ∀ {ansp : ℕ}, ∀ k ∈ skipNameReads packet plen fuel ansp, k < plen := by
  induction fuel with
  | zero => exact fun _ hk ↦ absurd hk List.not_mem_nil
  | succ fuel ih =>
    intro ansp k hk
    rw [skipNameReads] at hk
    by_cases hshort : checkLen plen ansp 1 = false
    · rw [if_pos hshort] at hk
      exact absurd hk List.not_mem_nil
    · rw [if_neg hshort] at hk
      have hansp : ansp + 1 ≤ plen := by simpa [checkLen] using hshort
      have hone : k ∈ [ansp] → k < plen := fun hk ↦ List.mem_singleton.mp hk ▸ hansp
      have hnext : ∀ next, k ∈ ansp :: skipNameReads packet plen fuel next → k < plen :=
        fun next hk ↦
        (List.mem_cons.mp hk).elim (fun heq ↦ heq ▸ hansp) (ih k)
      have hbits : ∀ next, k ∈ ansp :: (ansp + 1) :: skipNameReads packet plen fuel next →
        ansp + 2 ≤ plen → k < plen := by
        intro next hk htwo
        rcases List.mem_cons.mp hk with rfl | hk
        · exact hansp
        · exact (List.mem_cons.mp hk).elim (fun heq ↦ heq ▸ htwo) (ih k)
      dsimp only at hk
      split_ifs at hk with hpointer hreserved hkind hbad hcount hcut hend
      · exact hone hk
      · exact hone hk
      · exact hone hk
      · exact hbits _ hk (by simpa [checkLen] using (not_or.mp hbad).1)
      · exact hbits _ hk (by simpa [checkLen] using (not_or.mp hbad).1)
      · exact hone hk
      · exact hone hk
      · exact hnext _ hk

def nameEnd (qlen : ℕ) (log : Bool) (packet : Packet) (p : ℕ) : Option ℕ :=
  if log then (extractName packet qlen p 10).map Prod.fst else skipName packet qlen p 10

theorem doctorName_spec (qlen : ℕ) (log : Bool) (p : ℕ) (s : Doctoring) :
    ∃ t, doctorName qlen log p s = some (nameEnd qlen log s.packet p, t) ∧ t.packet = s.packet ∧
      (t.Inside qlen ↔ s.Inside qlen ∧ (log = true → ¬ Overruns s.packet qlen p 0 0)) := by
  cases log with
  | true =>
    obtain ⟨value, t, hrun, hwrites, hreads⟩ := parseName_accesses s.packet qlen p true 10 s.name
    obtain ⟨value', t', hrun', hvalue⟩ := parseName_extractName s.packet qlen p 10 s.name
    rw [hrun] at hrun'
    cases hrun'
    refine ⟨{ s with name := t.name, reads := t.reads ++ s.reads, nameWrites := t.writes ++
      s.nameWrites }, ?_, rfl, ?_⟩
    · rw [doctorName, if_pos rfl, hrun, nameEnd, if_pos rfl]
      cases hextract : extractName s.packet qlen p 10 with
      | none =>
        rw [hextract] at hvalue
        simp [hvalue.1]
      | some result =>
        rw [hextract] at hvalue
        simp [hvalue.1, hvalue.2.1]
    · have hreads' : (∀ k ∈ t.reads, k < qlen) ↔ (true = true → ¬ Overruns s.packet qlen p 0 0) :=
        hreads.trans not_and
      rw [← hreads']
      constructor
      · rintro ⟨hall, hold, hname⟩
        obtain ⟨hparse, hall⟩ := List.forall_mem_append.mp hall
        exact ⟨⟨hall, hold, (List.forall_mem_append.mp hname).2⟩, hparse⟩
      · rintro ⟨⟨hall, hold, hname⟩, hparse⟩
        exact ⟨List.forall_mem_append.mpr ⟨hparse, hall⟩, hold,
          List.forall_mem_append.mpr ⟨hwrites, hname⟩⟩
  | false =>
    refine ⟨{ s with reads := skipNameReads s.packet qlen (qlen + 1) p ++ s.reads }, rfl, rfl, ?_⟩
    constructor
    · rintro ⟨hall, hold, hname⟩
      exact ⟨⟨(List.forall_mem_append.mp hall).2, hold, hname⟩, fun h ↦ absurd h Bool.false_ne_true⟩
    · rintro ⟨⟨hall, hold, hname⟩, -⟩
      exact ⟨List.forall_mem_append.mpr ⟨skipNameReads_lt _ _ _, hall⟩, hold, hname⟩

def doctored (opts : ReplyOptions) (packet : Packet) (q : ℕ) : Packet :=
  if isRecord packet q typeA then doctorRecord opts packet (q + 10) else packet

def dataEnd (packet : Packet) (q : ℕ) : ℕ := q + 10 + packet.getShort (q + 8)

/-- What `do_doctor` does with one record: the packet, and where the next record is. -/
def doctorStep (opts : ReplyOptions) (qlen : ℕ) (log : Bool) (packet : Packet) (p : ℕ) :
    Packet × Option ℕ :=
  match nameEnd qlen log packet p with
  | none => (packet, none)
  | some q =>
    if isRecord packet q typeA ∧ qlen < q + 14 then (packet, none)
    else (doctored opts packet q, if dataEnd packet q ≤ qlen then some (dataEnd packet q) else none)

theorem doDoctor_succ (opts : ReplyOptions) (qlen : ℕ) (named : Bool) (count p : ℕ)
    (packet : Packet) : doDoctor opts qlen named (count + 1) p packet =
      match doctorStep opts qlen (named && opts.optLog) packet p with
      | (packet, none) => (packet, none)
      | (packet, some p) => doDoctor opts qlen named count p packet := by
  rw [doDoctor, doctorStep, nameEnd]
  simp only [Bool.and_eq_true]
  cases (if named = true ∧ opts.optLog = true then (extractName packet qlen p 10).map Prod.fst
    else skipName packet qlen p 10) with
  | none => rfl
  | some q =>
    dsimp only
    have haddress : isRecord packet q typeA = true ↔ packet.getShort (q + 2) = classIn ∧
      packet.getShort q = typeA := by
      rw [isRecord, decide_eq_true_iff, and_comm]
    have hshort : isRecord packet q typeA = true ∧ qlen < q + 14 ↔
        packet.getShort (q + 2) = classIn ∧ packet.getShort q = typeA ∧
          checkLen qlen (q + 10) 4 = false := by
      rw [checkLen_eq_false, haddress, and_assoc]
    have hcheck : checkLen qlen (q + 10) (packet.getShort (q + 8)) = true ↔
      dataEnd packet q ≤ qlen :=
      decide_eq_true_iff
    have hdoctored : (if packet.getShort (q + 2) = classIn ∧ packet.getShort q = typeA then
        doctorRecord opts packet (q + 10) else packet) = doctored opts packet q := by
      simp only [doctored, haddress]
    rw [hdoctored]
    by_cases hbad : isRecord packet q typeA = true ∧ qlen < q + 14
    · rw [if_pos hbad, if_pos (hshort.mp hbad)]
    · rw [if_neg hbad, if_neg (hshort.not.mp hbad)]
      by_cases hwhole : dataEnd packet q ≤ qlen
      · rw [if_pos hwhole, if_pos (hcheck.mpr hwhole)]
        rfl
      · rw [if_neg hwhole, if_neg (hcheck.not.mpr hwhole)]

/-- What is accessed for a record whose name is extracted is inside the packet: the name does not
lead to a bitstring that runs over the end, the ten bytes behind it are there, and the strings of a
TXT record end inside, or have a character that cannot be printed. -/
structure LoggedInside (qlen : ℕ) (packet : Packet) (p : ℕ) : Prop where
  name : ¬ Overruns packet qlen p 0 0
  fixed : ∀ q, nameEnd qlen true packet p = some q → q + 10 ≤ qlen
  strings : ∀ q, nameEnd qlen true packet p = some q → packet.getShort q = typeTxt →
    dataEnd packet q ≤ qlen →
    ∀ p1, StringAt packet (dataEnd packet q) (q + 10) p1 → StringInside packet qlen p1

open Doctoring in
/-- The data of a record: an address is replaced, strings are logged. -/
theorem doctorData_spec (opts : ReplyOptions) (qlen : ℕ) (log : Bool) (q : ℕ) (s : Doctoring) :
    ∃ t, doctorData opts qlen log (s.packet.getShort q) (s.packet.getShort (q + 2))
      (s.packet.getShort (q + 8)) (q + 10) s =
        some (decide (¬ (isRecord s.packet q typeA ∧ qlen < q + 14) ∧
          ¬ (s.packet.getShort q = typeTxt ∧ log = true ∧ qlen < dataEnd s.packet q)), t) ∧
      t.packet =
      (if isRecord s.packet q typeA ∧ qlen < q + 14 then s.packet else doctored opts s.packet q) ∧
      (t.Inside qlen ↔ s.Inside qlen ∧ (log = true → s.packet.getShort q = typeTxt →
      dataEnd s.packet q ≤ qlen →
        ∀ p1, StringAt s.packet (dataEnd s.packet q) (q + 10) p1 →
        StringInside s.packet qlen p1)) := by
  have haddress : isRecord s.packet q typeA = true ↔ s.packet.getShort (q + 2) = classIn ∧
    s.packet.getShort q = typeA := by
    rw [isRecord, decide_eq_true_iff, and_comm]
  rw [doctorData]
  by_cases ha : s.packet.getShort (q + 2) = classIn ∧ s.packet.getShort q = typeA
  · have htxt : s.packet.getShort q ≠ typeTxt := by
      rw [ha.2]
      decide
    rw [if_pos ha]
    by_cases hshort : qlen < q + 14
    · rw [if_pos ((checkLen_eq_false qlen (q + 10) 4).mpr hshort), if_pos ⟨haddress.mpr ha, hshort⟩]
      refine ⟨s, ?_, rfl, ?_⟩
      · simp [haddress.mpr ha, hshort]
      · exact (and_iff_left fun _ h ↦ absurd h htxt).symm
    · rw [if_neg ((checkLen_eq_false qlen (q + 10) 4).not.mpr hshort), if_neg fun h ↦ hshort h.2]
      refine ⟨s.replaceAddress opts (q + 10), ?_, ?_, ?_⟩
      · simp [hshort, htxt]
      · rw [packet_replaceAddress, doctored, if_pos (haddress.mpr ha)]
      · rw [inside_replaceAddress opts (by omega)]
        exact and_congr_right fun _ ↦ ⟨fun _ _ h ↦ absurd h htxt, fun _ ↦ by omega⟩
  · have hnot : ¬ (isRecord s.packet q typeA = true ∧ qlen < q + 14) := fun h ↦ ha (haddress.mp h.1)
    rw [if_neg ha, if_neg hnot, doctored, if_neg (haddress.not.mpr ha)]
    by_cases htxt : s.packet.getShort q = typeTxt ∧ log = true
    · rw [if_pos htxt]
      by_cases hshort : qlen < dataEnd s.packet q
      · rw [if_pos ((checkLen_eq_false qlen (q + 10) _).mpr hshort)]
        refine ⟨s, ?_, rfl, ?_⟩
        · simp [htxt, hshort]
        · exact (and_iff_left fun _ _ h ↦ absurd h (not_le.mpr hshort)).symm
      · obtain ⟨t, hrun, hpacket, hinside⟩ :=
          @logStrings_spec qlen (q + 10) (s.packet.getShort (q + 8)) s
        rw [if_neg ((checkLen_eq_false qlen (q + 10) _).not.mpr hshort), hrun]
        refine ⟨t, ?_, hpacket, ?_⟩
        · simp [haddress.not.mpr ha, hshort]
        · rw [hinside]
          exact and_congr_right fun _ ↦
            ⟨fun h _ _ _ ↦ h, fun h ↦ h htxt.2 htxt.1 (not_lt.mp hshort)⟩
    · rw [if_neg htxt]
      refine ⟨s, ?_, rfl, ?_⟩
      · have hnot : ¬ (s.packet.getShort q = typeTxt ∧ log = true ∧ qlen < dataEnd s.packet q) :=
          fun h ↦ htxt ⟨h.1, h.2.1⟩
        simp [haddress.not.mpr ha, hnot]
      · exact (and_iff_left fun hlog h ↦ absurd ⟨h, hlog⟩ htxt).symm

open Doctoring in
theorem doctorRound_spec (opts : ReplyOptions) (qlen : ℕ) (log : Bool) (p : ℕ) (s : Doctoring) :
    ∃ t, doctorRound opts qlen log p s = some ((doctorStep opts qlen log s.packet p).2, t) ∧
      t.packet = (doctorStep opts qlen log s.packet p).1 ∧
      (t.Inside qlen ↔ s.Inside qlen ∧ (log = true → LoggedInside qlen s.packet p)) := by
  obtain ⟨s', hname, hpacket, hinside⟩ := doctorName_spec qlen log p s
  rw [doctorRound, hname, doctorStep]
  cases hend : nameEnd qlen log s.packet p with
  | none =>
    refine ⟨s', rfl, hpacket, hinside.trans (and_congr_right fun _ ↦
      ⟨fun h hlog ↦ ?_, fun h hlog ↦ (h hlog).name⟩)⟩
    subst hlog
    exact ⟨h rfl, fun q hq ↦
      absurd (hend.symm.trans hq) (by simp), fun q hq ↦ absurd (hend.symm.trans hq) (by simp)⟩
  | some q =>
    obtain ⟨t, hdata, hpacket', hinside'⟩ :=
      doctorData_spec opts qlen log q (((s'.look q 2).look (q + 2) 2).look (q + 8) 2)
    simp only [packet_look, hpacket] at hdata hpacket' hinside'
    dsimp only
    rw [hpacket, hdata]
    refine ⟨t, ?_, ?_, ?_⟩
    · rw [Option.map_some]
      have hcheck : checkLen qlen (q + 10) (s.packet.getShort (q + 8)) = true ↔
        dataEnd s.packet q ≤ qlen :=
        decide_eq_true_iff
      simp only [decide_eq_true_iff, hcheck]
      by_cases hshort : isRecord s.packet q typeA = true ∧ qlen < q + 14
      · rw [if_neg fun h ↦ h.1.1 hshort, if_pos hshort]
      · rw [if_neg hshort]
        by_cases hwhole : dataEnd s.packet q ≤ qlen
        · rw [if_pos ⟨⟨hshort, fun h ↦ absurd hwhole (not_le.mpr h.2.2)⟩, hwhole⟩, if_pos hwhole]
          rfl
        · rw [if_neg fun h ↦ hwhole h.2, if_neg hwhole]
    · rw [hpacket']
      split_ifs <;> rfl
    · rw [hinside', inside_look, inside_look, inside_look, hinside]
      cases log with
      | true =>
        simp only [true_imp_iff]
        constructor
        · rintro ⟨⟨⟨⟨⟨hs, hname⟩, -⟩, -⟩, hfixed⟩, hstrings⟩
          refine ⟨hs, hname, fun q' hq ↦ ?_, fun q' hq ↦ ?_⟩
          · cases hend.symm.trans hq
            omega
          · cases hend.symm.trans hq
            exact hstrings
        · rintro ⟨hs, hname, hfixed, hstrings⟩
          have hten := hfixed q hend
          exact ⟨⟨⟨⟨⟨hs, hname⟩, by omega⟩, by omega⟩, by omega⟩, hstrings q hend⟩
      | false =>
        have hten : q + 10 ≤ qlen := by
          have hcheck := (Option.filter_eq_some_iff.mp hend).2
          simpa [checkLen] using hcheck
        simp only [Bool.false_eq_true, false_imp_iff, and_true]
        exact ⟨fun h ↦ h.1.1.1, fun h ↦ ⟨⟨⟨h, by omega⟩, by omega⟩, by omega⟩⟩

/-! ### All rounds -/

/-- Records are passed, one after the other: their names are in order and their data is in the
packet, with the addresses in front of them replaced. -/
inductive Passes (opts : ReplyOptions) (qlen : ℕ) (log : Bool) : Packet → ℕ → List ℕ → ℕ → Prop
  | start {packet : Packet} {p : ℕ} : Passes opts qlen log packet p [] p
  | record {packet : Packet} {p q p' : ℕ} {qs : List ℕ} (hname : nameEnd qlen log packet p = some q)
      (haddress : isRecord packet q typeA → q + 14 ≤ qlen) (hdata : dataEnd packet q ≤ qlen)
      (hrest : Passes opts qlen log (doctored opts packet q) (dataEnd packet q) qs p') :
      Passes opts qlen log packet p (q :: qs) p'

variable {opts : ReplyOptions} {qlen : ℕ} {named log : Bool} {packet : Packet} {p p' : ℕ}

theorem passes_nil_iff : Passes opts qlen log packet p [] p' ↔ p' = p := by
  constructor
  · rintro ⟨⟩
    rfl
  · rintro rfl
    exact .start

theorem doctorStep_eq_some {packet' : Packet}
    (h : doctorStep opts qlen log packet p = (packet', some p')) :
    ∃ q, nameEnd qlen log packet p = some q ∧
      (isRecord packet q typeA → q + 14 ≤ qlen) ∧ dataEnd packet q ≤ qlen ∧
      packet' = doctored opts packet q ∧ p' = dataEnd packet q := by
  rw [doctorStep] at h
  cases hend : nameEnd qlen log packet p with
  | none => simp [hend] at h
  | some q =>
    rw [hend] at h
    dsimp only at h
    split_ifs at h with hshort hwhole
    · simp at h
    · cases h
      exact ⟨q, rfl, fun ha ↦ by by_contra hlen; exact hshort ⟨ha, by omega⟩, hwhole, rfl, rfl⟩
    · simp at h

/-- What holds of every record that is come to holds of the first, and of the others if it is
passed. -/
theorem forall_passes_succ {Good : Packet → ℕ → Prop} {count : ℕ} {packet' : Packet}
    {next : Option ℕ} (hstep : doctorStep opts qlen log packet p = (packet', next)) :
    (∀ qs p', Passes opts qlen log packet p qs p' → qs.length < count + 1 →
      Good (qs.foldl (doctored opts) packet) p') ↔
      Good packet p ∧ ∀ p₁, next = some p₁ → ∀ qs p', Passes opts qlen log packet' p₁ qs p' →
      qs.length < count →
        Good (qs.foldl (doctored opts) packet') p' := by
  constructor
  · intro h
    refine ⟨h [] p .start (Nat.succ_pos count), ?_⟩
    rintro p₁ rfl qs p' hpasses hlen
    obtain ⟨q, hname, haddress, hdata, rfl, rfl⟩ := doctorStep_eq_some hstep
    exact h (q :: qs) p' (.record hname haddress hdata hpasses) (Nat.succ_lt_succ hlen)
  · rintro ⟨hfirst, hrest⟩ qs p' hpasses hlen
    cases hpasses with
    | start => exact hfirst
    | @record _ _ q _ qs hname haddress hdata hpasses =>
      have hstep' : doctorStep opts qlen log packet p =
        (doctored opts packet q, some (dataEnd packet q)) := by
        rw [doctorStep, hname]
        dsimp only
        rw [if_neg fun h ↦ absurd (haddress h.1) (not_le.mpr h.2), if_pos hdata]
      rw [hstep] at hstep'
      cases hstep'
      exact hrest _ rfl qs p' hpasses (Nat.lt_of_succ_lt_succ hlen)

/-- `do_doctor` returns. What it accesses is inside if nothing is logged. -/
theorem doctorSection_spec (count : ℕ) : ∀ (p : ℕ) (s : Doctoring),
    ∃ t, doctorSection opts qlen named count p s = some
      ((doDoctor opts qlen named count p s.packet).2, t) ∧
      t.packet = (doDoctor opts qlen named count p s.packet).1 ∧
      (t.Inside qlen ↔ s.Inside qlen ∧ ((named && opts.optLog) = true → ∀ qs p',
        Passes opts qlen (named && opts.optLog) s.packet p qs p' → qs.length < count →
          LoggedInside qlen (qs.foldl (doctored opts) s.packet) p')) := by
  induction count with
  | zero => exact fun p s ↦
    ⟨s, rfl, rfl, (and_iff_left fun _ _ _ _ h ↦ absurd h (Nat.not_lt_zero _)).symm⟩
  | succ count ih =>
    intro p s
    obtain ⟨t, hround, hpacket, hinside⟩ := doctorRound_spec opts qlen (named && opts.optLog) p s
    rw [doctorSection, hround, doDoctor_succ]
    have hpasses :=
      @forall_passes_succ opts qlen (named && opts.optLog) s.packet p (LoggedInside qlen) count
    cases hstep : doctorStep opts qlen (named && opts.optLog) s.packet p with
    | mk packet' next =>
      rw [hstep] at hpacket
      rw [hpasses hstep]
      cases next with
      | none =>
        refine ⟨t, rfl, hpacket, hinside.trans (and_congr_right fun _ ↦ ?_)⟩
        exact forall_congr' fun _ ↦ (and_iff_left fun _ h ↦ absurd h (by simp)).symm
      | some p₁ =>
        obtain ⟨t', hrun, hpacket', hinside'⟩ := ih p₁ t
        rw [hpacket] at hrun hpacket' hinside'
        refine ⟨t', hrun, hpacket', ?_⟩
        rw [hinside', hinside, and_assoc]
        refine and_congr_right fun _ ↦ ?_
        rw [← imp_and]
        refine forall_congr' fun _ ↦ and_congr_right fun _ ↦ ?_
        exact ⟨fun h _ heq ↦ Option.some.inj heq ▸ h, fun h ↦ h p₁ rfl⟩

end CrossBreeder.Dnsmasq
