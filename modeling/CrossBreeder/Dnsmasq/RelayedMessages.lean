import CrossBreeder.Dnsmasq.NestedOptions

/-!
# Messages in relayed messages

Each relay on the way puts what it received into an option of a message of its own. The server takes
the messages apart recursively and writes its reply on the way. `relay6_forward` says that it sends
the reply to the client's message, in the same messages around it, turned into replies.
-/

namespace CrossBreeder.Dnsmasq

/-- The loop over the options in `dhcp6_maybe_relay`, with the call for a message in the message. -/
def relayOptions (relay : Packet → Option Calls6) : ℕ → Packet → Option Calls6
  | 0, _ => none
  | fuel + 1, opt =>
    let data := (opt.drop 4).take (opt6Len opt)
    (if opt.getShort 0 = 9 then relay data else some (.data data .done)).bind fun body ↦
      ((opt6Next opt).elim (some .done) (relayOptions relay fuel)).map
        (.option (opt.getShort 0) body)

/-- `dhcp6_maybe_relay`. The link address and the tags for `dhcp6_no_relay` are those of the
messages around. -/
def relay6 (noRelay : List Packet → Packet → Option Calls6) :
    ℕ → List Packet → Packet → Option Calls6
  | 0, _, _ => none
  | fuel + 1, around, packet =>
    if packet.byte 0 ≠ 12 then noRelay around packet
    else if packet.length < 38 then none
    else (relayOptions (relay6 noRelay fuel (packet :: around)) packet.length (packet.drop 34)).map
      (.data (13 :: (packet.take 34).drop 1))

/-- Options with a number and data. -/
def optionBytes (options : List (ℕ × List UInt8)) : List UInt8 :=
  options.flatMap fun option ↦ short6 option.1 ++ short6 option.2.length ++ option.2

structure Hop6 where
  header : List UInt8
  before : List (ℕ × List UInt8)
  behind : List (ℕ × List UInt8)

namespace Hop6

def options (hop : Hop6) (message : List UInt8) :
    List UInt8 := optionBytes (hop.before ++ (9, message) :: hop.behind)

def Sized (hop : Hop6) : Prop :=
  hop.header.length = 33 ∧ ∀ option ∈ hop.before ++ hop.behind, option.1 < 65536 ∧ option.1 ≠ 9

end Hop6

def viaHops (type : UInt8) (hops : List Hop6) (message : List UInt8) : Packet :=
  hops.foldr (fun hop inner ↦ type :: (hop.header ++ hop.options inner)) message

def messagesAround (message : Packet) : List Hop6 → List Packet → List Packet
  | [], around => around
  | hop :: hops, around => messagesAround message hops (viaHops 12 (hop :: hops) message :: around)

def loopBytes (relay : Packet → Option Calls6) (fuel : ℕ) (options : Packet) :
    Option (List UInt8) :=
  if options = [] then some [] else (relayOptions relay fuel options).map Calls6.bytes

section Loop

variable (relay : Packet → Option Calls6) (fuel : ℕ)

theorem loopBytes_option {opt : ℕ} {data back : List UInt8} (hopt : opt < 65536)
    (hlen : (short6 opt ++ short6 data.length ++ data ++ back).length < 65536) :
    loopBytes relay (fuel + 1) (short6 opt ++ short6 data.length ++ data ++ back) =
      (if opt = 9 then (relay data).map Calls6.bytes else some data).bind fun body ↦
        (loopBytes relay fuel back).map (short6 opt ++ short6 body.length ++ body ++ ·) := by
  have hdata : data.length < 65536 := by
    simp only [List.length_append] at hlen
    omega
  obtain ⟨-, htype, htake, hnext⟩ := option_read hopt hdata rfl
  have hbehind : ((if back = [] then none else some back).elim (some .done)
    (relayOptions relay fuel)).map Calls6.bytes =
      loopBytes relay fuel back := by
    unfold loopBytes
    split <;> rfl
  have hbody : (if opt = 9 then relay data else some (.data data .done)).map Calls6.bytes =
      if opt = 9 then (relay data).map Calls6.bytes else some data := by
    split
    · rfl
    · simp [Calls6.bytes]
  rw [loopBytes, if_neg
    (by simp [short6]), relayOptions, htype, htake, hnext, Option.map_bind, ← hbody, ← hbehind]
  simp [Option.bind_map, Function.comp_def, Calls6.bytes]

theorem loopBytes_copied (back : List UInt8) (options : List (ℕ × List UInt8)) :
    (∀ option ∈ options, option.1 < 65536 ∧ option.1 ≠ 9) →
      (optionBytes options ++ back).length < 65536 →
      loopBytes relay (options.length + fuel) (optionBytes options ++ back) =
        (loopBytes relay fuel back).map (optionBytes options ++ ·) := by
  induction options with
  | nil => simp [optionBytes]
  | cons option options ih =>
    intro hsized hlen
    obtain ⟨⟨hopt, hnine⟩, hrest⟩ := List.forall_mem_cons.mp hsized
    have hcons : optionBytes (option :: options) ++ back =
        short6 option.1 ++ short6 option.2.length ++ option.2 ++ (optionBytes options ++ back) := by
      simp only [optionBytes, List.flatMap_cons, List.append_assoc]
    rw [hcons] at hlen ⊢
    rw [List.length_cons, Nat.add_right_comm, loopBytes_option relay _ hopt hlen, if_neg hnine,
      Option.bind_some, ih hrest (by rw [List.length_append] at hlen; omega)]
    simp [optionBytes, Function.comp_def]

theorem length_le_optionBytes (options : List (ℕ × List UInt8)) : options.length ≤
    (optionBytes options).length := by
  induction options with
  | nil => exact Nat.zero_le _
  | cons option options ih =>
    simp [optionBytes, short6] at ih ⊢
    omega

variable {fuel} {hop : Hop6} {inner : List UInt8}

theorem loopBytes_hop (hsized : hop.Sized) (hlen : (hop.options inner).length < 65536)
    (hfuel : (hop.options inner).length ≤ fuel) :
    loopBytes relay fuel (hop.options inner) =
      ((relay inner).map Calls6.bytes).map hop.options := by
  have hsplit (data : List UInt8) : hop.options data = optionBytes hop.before ++
      (short6 9 ++ short6 data.length ++ data ++ (optionBytes hop.behind ++ [])) := by
    simp only [Hop6.options, optionBytes, List.flatMap_append, List.flatMap_cons, List.append_nil]
  obtain ⟨n, rfl⟩ : ∃ n, fuel = hop.before.length + (hop.behind.length + n + 1) := by
    have := (length_le_optionBytes _).trans hfuel
    rw [List.length_append, List.length_cons] at this
    exact ⟨fuel - (hop.before.length + (hop.behind.length + 1)), by omega⟩
  obtain ⟨hbefore, hbehind⟩ := List.forall_mem_append.mp hsized.2
  rw [hsplit] at hlen ⊢
  have hcopied : loopBytes relay (hop.behind.length + n) (optionBytes hop.behind ++ []) =
    some (optionBytes hop.behind ++ []) := by
    rw [loopBytes_copied _ _ _ _ hbehind (by simp only [List.length_append] at hlen ⊢; omega)]
    rfl
  rw [loopBytes_copied _ _ _ _ hbefore hlen,
    loopBytes_option _ _ (by decide) (by rw [List.length_append] at hlen; omega),
    if_pos rfl, hcopied]
  cases relay inner with
  | none => rfl
  | some reply => simp [hsplit]

end Loop

variable (noRelay : List Packet → Packet → Option Calls6) {message : Packet}
    (hmessage : message.byte 0 ≠ 12)
include hmessage

theorem relay6_bytes (hops : List Hop6) :
    ∀ around : List Packet, (∀ hop ∈ hops, hop.Sized) → (viaHops 12 hops message).length < 65536 →
      (relay6 noRelay (hops.length + 1) around (viaHops 12 hops message)).map Calls6.bytes =
        (noRelay (messagesAround message hops around) message).map fun reply ↦
        viaHops 13 hops reply.bytes := by
  induction hops with
  | nil =>
    intro around _ _
    exact congrArg _ (if_pos hmessage)
  | cons hop hops ih =>
    intro around hsized hlen
    obtain ⟨hhop, hrest⟩ := List.forall_mem_cons.mp hsized
    generalize hinner : viaHops 12 hops message = inner at ih
    generalize houter : viaHops 12 (hop :: hops) message = outer at hlen ⊢
    have hbytes : outer = 12 :: (hop.header ++ hop.options inner) := by
      rw [← houter, ← hinner]
      rfl
    have hlength : outer.length = 34 + (hop.options inner).length := by
      rw [hbytes, List.length_cons, List.length_append, hhop.1]
      omega
    have hnine : 4 + inner.length ≤ (hop.options inner).length := by
      simp [Hop6.options, optionBytes, short6]
      omega
    have hdrop : outer.drop 34 = hop.options inner := by
      rw [hbytes, List.drop_succ_cons, ← hhop.1, List.drop_left]
    have htake : (outer.take 34).drop 1 = hop.header := by
      rw [hbytes, List.take_succ_cons, ← hhop.1, List.take_left]
      rfl
    have hloop := loopBytes_hop (relay6 noRelay (hops.length + 1) (outer :: around)) hhop
      (by omega : (hop.options inner).length < 65536) (by omega : _ ≤ outer.length)
    rw [ih _ hrest (by omega), loopBytes, if_neg (List.ne_nil_of_length_pos (by omega))] at hloop
    have hdata : Calls6.bytes ∘ Calls6.data (13 :: hop.header) =
      ((13 :: hop.header) ++ ·) ∘ Calls6.bytes := rfl
    rw [List.length_cons, relay6,
      if_neg (by rw [hbytes]; exact not_not_intro rfl), if_neg (by omega),
      htake, hdrop, Option.map_map, messagesAround, houter, hdata, ← Option.map_map, hloop,
        Option.map_map, Option.map_map]
    rfl

/-- The reply to a message that went through relays is the reply to the client's message, with the
header and the options of each relay around it. There is none when there is none for the client. -/
theorem relay6_forward (s : OutPacket) {hops : List Hop6} (hsized : ∀ hop ∈ hops, hop.Sized)
    (hlen : (viaHops 12 hops message).length < 65536) :
    (relay6 noRelay (hops.length + 1) [] (viaHops 12 hops message)).map
      (fun calls ↦ (calls.write s).written) =
      (noRelay (messagesAround message hops []) message).map fun reply ↦
      s.written ++ viaHops 13 hops reply.bytes := by
  have hwrite : (fun calls : Calls6 ↦ (calls.write s).written) = (s.written ++ ·) ∘ Calls6.bytes :=
    funext fun calls ↦ calls.write_eq s
  rw [hwrite, ← Option.map_map, relay6_bytes noRelay hmessage hops [] hsized hlen, Option.map_map]
  rfl

omit hmessage

/-- A message through two relays, the last of which names its interface. -/
theorem relay6_forward_twice :
    let hops : List Hop6 :=
  [⟨List.replicate 33 1, [(18, [101])], []⟩, ⟨List.replicate 33 0, [], []⟩]
    let noRelay : List Packet → Packet → Option Calls6 :=
      fun _ packet ↦ some (.data (7 :: packet.drop 1) .done)
    (relay6 noRelay (hops.length + 1) [] (viaHops 12 hops [1, 5])).map (fun calls ↦
      (calls.write ⟨[], []⟩).written) = some (viaHops 13 hops [7, 5]) := by
  intro hops noRelay
  refine relay6_forward noRelay (by decide) ⟨[], []⟩ (by simp [hops, Hop6.Sized]) ?_
  simp [hops, viaHops, Hop6.options, optionBytes, short6]

end CrossBreeder.Dnsmasq
