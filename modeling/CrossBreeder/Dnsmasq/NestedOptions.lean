import CrossBreeder.Dnsmasq.Packet

/-!
# Options in options

A reply of DHCPv6 is written into one buffer, with options in options. `Calls6.write_eq` says what
all of this leaves in the buffer, and `option_read` what is read of an option there.
-/

namespace CrossBreeder.Dnsmasq

/-! ### Writing -/

/-- `daemon->outpacket`, cut at its counter. -/
structure OutPacket where
  written : List UInt8
  behind : List UInt8

/-- The two bytes of `PUTSHORT`. -/
def short6 (value : ℕ) : List UInt8 := [UInt8.ofNat (value / 256), UInt8.ofNat value]

namespace OutPacket

/-- `put_opt6`, and the bytes of a number with `put_opt6_long`, `put_opt6_short` or `put_opt6_char`.
-/
def putOpt6 (data : List UInt8) (s : OutPacket) :
    OutPacket := ⟨s.written ++ data, s.behind.drop data.length⟩

/-- `new_opt6`. The option is where the counter was. -/
def newOpt6 (opt : ℕ) (s : OutPacket) : OutPacket := s.putOpt6 (short6 opt ++ short6 0)

def endOpt6 (container : ℕ) (s : OutPacket) : OutPacket :=
  { s with
    written := s.written.take (container + 2) ++ short6 (s.written.length - container - 4) ++
      s.written.drop (container + 4) }

/-- `save_counter` with a new value. -/
def saveCounter (newval : ℕ) (s : OutPacket) : OutPacket :=
  ⟨(s.written ++ s.behind).take newval, (s.written ++ s.behind).drop newval⟩

end OutPacket

/-- The calls that write a part of a reply: bytes, an option with what is in it, bytes that are
reserved and filled in behind other calls, and calls that are dropped. -/
inductive Calls6
  | done
  | data (bytes : List UInt8) (rest : Calls6)
  | option (opt : ℕ) (body rest : Calls6)
  | later (value : List UInt8) (body rest : Calls6)
  | dropped (body rest : Calls6)

namespace Calls6

def write : Calls6 → OutPacket → OutPacket
  | done, s => s
  | data bytes rest, s => rest.write (s.putOpt6 bytes)
  | option opt body rest, s => rest.write ((body.write (s.newOpt6 opt)).endOpt6 s.written.length)
  | later value body rest, s =>
    let sav := body.write (s.putOpt6 (List.replicate value.length 0))
    rest.write (((sav.saveCounter s.written.length).putOpt6 value).saveCounter sav.written.length)
  | dropped body rest, s => rest.write ((body.write s).saveCounter s.written.length)

/-- What they are to leave in the buffer. -/
def bytes : Calls6 → List UInt8
  | done => []
  | data bytes rest => bytes ++ rest.bytes
  | option opt body rest => short6 opt ++ short6 body.bytes.length ++ body.bytes ++ rest.bytes
  | later value body rest => value ++ body.bytes ++ rest.bytes
  | dropped _ rest => rest.bytes

theorem write_eq (calls : Calls6) : ∀ s : OutPacket,
    (calls.write s).written = s.written ++ calls.bytes := by
  induction calls with
  | done => exact fun s ↦ (List.append_nil _).symm
  | data bytes rest ih =>
    intro s
    rw [write, ih, OutPacket.putOpt6, Calls6.bytes, List.append_assoc]
  | option opt body rest ihBody ihRest =>
    intro s
    have hbody : (body.write (s.newOpt6 opt)).written = s.written ++ short6 opt ++ short6 0 ++
      body.bytes := by
      rw [ihBody, OutPacket.newOpt6, OutPacket.putOpt6]
      simp only [List.append_assoc]
    rw [write, ihRest, OutPacket.endOpt6, hbody, Calls6.bytes]
    simp [short6, List.take_append, List.drop_append, List.take_of_length_le,
      List.drop_of_length_le]
  | later value body rest ihBody ihRest =>
    intro s
    rw [write, ihRest, Calls6.bytes]
    simp [OutPacket.saveCounter, OutPacket.putOpt6, ihBody, List.take_append, List.drop_append,
      List.take_of_length_le]
  | dropped body rest ihBody ihRest =>
    intro s
    rw [write, ihRest, OutPacket.saveCounter, ihBody, Calls6.bytes, List.append_assoc,
      List.take_left]

end Calls6

/-! ### Reading -/

/-- `opt6_len`. A pointer to an option is what the packet has from there to the end. -/
def opt6Len (opt : Packet) : ℕ := opt.getShort 2

def opt6Next (opt : Packet) : Option Packet :=
  if opt.length < 4 ∨ opt.length - 4 ≤ opt6Len opt then none else some (opt.drop (4 + opt6Len opt))

theorem option_read {opt : ℕ} {data back : List UInt8} (hopt : opt < 65536)
    (hlen : data.length < 65536) {packet : Packet}
    (hpacket : packet = short6 opt ++ short6 data.length ++ data ++ back) :
    packet.length = 4 + data.length + back.length ∧ packet.getShort 0 = opt ∧
      (packet.drop 4).take (opt6Len packet) = data ∧
      opt6Next packet = if back = [] then none else some back := by
  have hlength : opt6Len packet = data.length := by
    simp [hpacket, opt6Len, Packet.getShort, Packet.byte, short6]
    omega
  have hall : packet.length = 4 + data.length + back.length := by
    simp only [hpacket, short6, List.length_append, List.length_cons, List.length_nil]
  have hdrop : packet.drop 4 = data ++ back := by simp [hpacket, short6]
  refine ⟨hall, ?_, by rw [hlength, hdrop, List.take_left], ?_⟩
  · simp [hpacket, Packet.getShort, Packet.byte, short6]
    omega
  · unfold opt6Next
    rw [hlength, ← List.drop_drop, hdrop, List.drop_left]
    by_cases hback : back = []
    · rw [if_pos hback, if_pos (by rw [hall, hback, List.length_nil]; omega)]
    · have := List.length_pos_of_ne_nil hback
      rw [if_neg hback, if_neg (by omega)]

end CrossBreeder.Dnsmasq
