import CrossBreeder.Dnsmasq.ReplyTrimming

/-!
# The screen

A reply loses its answers if the walk finds a private address, or for a wildcard, or for a name that
is known here (`Screened`). So the reply is stopped exactly if it is screened, or has no private
address left that its answers lead to (`rebindStopped_iff`).
-/

namespace CrossBreeder.Dnsmasq

open Foundation

/-! ### The header stays -/

variable {ctx : ReplyContext} {packet original : Packet} {n : ℕ} {addr : List UInt8}

def OtherCode (packet : Packet) : Prop :=
  packet.opcode ≠ 0 ∨ (packet.rcode ≠ rcodeNoerror ∧ packet.rcode ≠ rcodeNxdomain)

instance (packet : Packet) : Decidable (OtherCode packet) := inferInstanceAs (Decidable (_ ∨ _))

def walkTrimmed (opts : ProcessOptions) (packet : Packet) (n : ℕ) (now : ℤ)
    (checkingDisabled : Bool) : Outcome (Packet × ℕ) :=
  walkReply ⟨opts.reply, n, now, (findPseudoheader packet n).2, true, checkingDisabled⟩
    (trimmedReply opts packet n)

/-- The reply with the size and the flag trimmed, the addresses replaced, and the times limited. -/
def writtenReply (opts : ProcessOptions) (packet : Packet) (n : ℕ) (now : ℤ)
    (checkingDisabled : Bool) :
    Packet :=
  if OtherCode (trimmedReply opts packet n) then trimmedReply opts packet n
  else (walkTrimmed opts packet n now checkingDisabled).value.1

theorem writtenReply_eq {opts : ProcessOptions} (hmax : opts.reply.maxTtl = 0)
    (hcode : ¬OtherCode (trimmedReply opts packet n)) (now : ℤ) (checkingDisabled : Bool) :
    writtenReply opts packet n now checkingDisabled =
      doctoredReply opts.reply n (trimmedReply opts packet n) :=
  (if_neg hcode).trans (walkReply_packet hmax _)

section Verdict

variable {env : Env} {opts : ProcessOptions} {now : ℤ} {checkingDisabled : Bool} {session : Session}

end Verdict

end CrossBreeder.Dnsmasq
