import CrossBreeder.Dnsmasq.Tftp

/-!
# One transfer in a run of the TFTP server

A rule for a transfer says what holds while it is active, of each packet that is sent for it, and
when it is done. `check_tftp_listeners` keeps a rule if it keeps it for the transfer alone, in calls
that are allowed, and then the rule holds in every run of such calls (`TransferRule.inv`): other
transfers have other numbers.
-/

namespace CrossBreeder.Dnsmasq

open Foundation

/-! ### The numbers of requests -/

/-- What every call keeps: the numbers of transfers and events are those of earlier requests. -/
structure Numbered (s : TftpState) : Prop where
  trans : ∀ transfer ∈ s.trans, transfer.number < s.requests
  doneTrans : ∀ transfer ∈ s.doneTrans, transfer.number < s.requests
  log : ∀ event ∈ s.log, event.number < s.requests

theorem Numbered.check {s : TftpState} (h : Numbered s) (input : TftpInput) :
    Numbered (checkTftpListeners s input) := by
  obtain ⟨hkept, hfinished, hevents⟩ := number_checkTransfers input s.trans
  have hbound : ∀ {number : ℕ}, (∃ old ∈ s.trans, number = old.number) → number < s.requests := by
    rintro number ⟨old, hold, rfl⟩
    exact h.trans old hold
  refine ⟨fun transfer hmem ↦ hbound (hkept transfer hmem), fun transfer hmem ↦ ?_,
    fun event hmem ↦ ?_⟩
  · rcases List.mem_append.mp hmem with hmem | hmem
    · exact hbound (hfinished transfer hmem)
    · exact h.doneTrans transfer hmem
  · rcases List.mem_append.mp hmem with hmem | hmem
    · obtain ⟨old, hold, hconcerns⟩ := hevents event hmem
      exact hbound ⟨old, hold, hconcerns.number_eq⟩
    · exact h.log event hmem

theorem Numbered.request {s : TftpState} (h : Numbered s) (env : TftpEnv) (now : ℤ)
    (request : TftpRequest) (expansion : UInt32) (readable : Bool) (buffer errstr : List UInt8) :
    Numbered (tftpRequest env s now request expansion readable buffer errstr) := by
  have hnumber := newTransfer_number env s.requests now request expansion
  unfold tftpRequest
  dsimp only
  generalize newTransfer env s.requests now request expansion = transfer at hnumber
  have hsame := number_getBlock transfer readable
  generalize getBlock transfer readable = result at hsame
  have hlater : ∀ {number : ℕ}, number < s.requests → number < s.requests + 1 := fun hlt ↦ by omega
  obtain ⟨first, _ | packet⟩ := result
  · refine ⟨fun other hmem ↦ hlater (h.trans other hmem), fun other hmem ↦
      hlater (h.doneTrans other hmem),
      List.forall_mem_cons.mpr ⟨?_, fun event hmem ↦ hlater (h.log event hmem)⟩⟩
    exact Nat.lt_succ_of_le (Nat.le_of_eq hnumber)
  · have hnew : first.number < s.requests + 1 :=
      Nat.lt_succ_of_le (Nat.le_of_eq (hsame.trans hnumber))
    exact ⟨List.forall_mem_cons.mpr ⟨hnew, fun other hmem ↦ hlater (h.trans other hmem)⟩,
      fun other hmem ↦ hlater (h.doneTrans other hmem),
      List.forall_mem_cons.mpr ⟨hnew, List.forall_mem_cons.mpr
        ⟨Nat.lt_succ_of_le (Nat.le_of_eq hnumber), fun event hmem ↦ hlater (h.log event hmem)⟩⟩⟩

theorem TftpReachable.numbered {env : TftpEnv} {s : TftpState} (h : TftpReachable env s) :
    Numbered s := by
  refine h.invariant Numbered ?_ ?_
  · rintro s rfl
    exact ⟨by simp, by simp, by simp⟩
  · rintro s call next - hinv - rfl
    cases call with
    | request now request expansion readable buffer errstr =>
      exact hinv.request env now request expansion readable buffer errstr
    | check input => exact hinv.check input
    | scriptRun =>
      exact ⟨hinv.trans, fun done hmem ↦ hinv.doneTrans done (List.mem_of_mem_tail hmem), hinv.log⟩

/-! ### Rules -/

structure Leaves (active : List TftpEvent → Transfer → Prop) (sent : UInt32 → List UInt8 → Prop)
    (finished : List TftpEvent → Prop) (number : ℕ) (log : List TftpEvent)
    (result : Transfer × Fate × List TftpEvent) : Prop where
  sent : ∀ n packet, .sent number n packet ∈ result.2.2 → sent n packet
  kept : result.2.1 = .kept → active (result.2.2 ++ log) result.1
  done : result.2.1 = .done → finished (result.2.2 ++ log)

/-- The packet at the socket of a transfer is taken, and if the transfer is due a packet is sent. -/
theorem leaves_check {active : List TftpEvent → Transfer → Prop} {sent : UInt32 → List UInt8 → Prop}
    {finished : List TftpEvent → Prop} {number : ℕ} {log : List TftpEvent} {transfer : Transfer}
    {input : TftpInput} (hdue : (transfer.taken input).1.timeout ≤ input.now →
      Leaves active sent finished number ((transfer.taken input).2 ++ log)
      ((transfer.taken input).1.retransmit (input.readable (transfer.taken input).1.number)
      input.buffer input.errstr))
    (hlater : input.now < (transfer.taken input).1.timeout →
      active ((transfer.taken input).2 ++ log) (transfer.taken input).1) :
    Leaves active sent finished number log (transfer.check input) := by
  have hnone : ∀ n packet, .sent number n packet ∉ (transfer.taken input).2 := by
    rcases taken_cases input transfer with ⟨-, htaken⟩ | ⟨_, _, htaken, -⟩ <;> simp [htaken]
  rw [check_eq]
  split_ifs with htime
  · refine ⟨fun n packet hmem ↦ ?_, fun hfate ↦ ?_, fun hfate ↦ ?_⟩
    · exact (hdue htime).sent n packet ((List.mem_append.mp hmem).resolve_right (hnone n packet))
    · rw [List.append_assoc]
      exact (hdue htime).kept hfate
    · rw [List.append_assoc]
      exact (hdue htime).done hfate
  · exact ⟨fun n packet hmem ↦ absurd hmem (hnone n packet), fun _ ↦
      hlater (Int.not_le.mp htime), by simp⟩

/-- A rule for the transfer that begins as `start`. -/
structure TransferRule (start : Transfer) (allowed : TftpInput → Transfer → Prop) where
  active : List TftpEvent → Transfer → Prop
  sent : UInt32 → List UInt8 → Prop
  finished : List TftpEvent → Prop
  active_mono : ∀ {log transfer} (more : List TftpEvent), active log transfer →
    active (more ++ log) transfer
  finished_mono : ∀ {log} (more : List TftpEvent), finished log → finished (more ++ log)
  begins : ∀ {readable first packet} (log : List TftpEvent),
    getBlock start readable = (first, some packet) →
    active (.sent first.number first.block packet :: log) first ∧ sent first.block packet
  check : ∀ {log transfer input}, active log transfer → transfer.number = start.number →
    allowed input transfer → Leaves active sent finished start.number log (transfer.check input)

/-- The calls that check the transfer that began as `start` only where it is allowed. -/
def Permits (start : Transfer) (allowed : List TftpEvent → TftpInput → Transfer → Prop)
    (s : TftpState) : TftpCall → Prop
  | .request _ _ _ _ _ _ => True
  | .check input => .started start ∈ s.log →
      ∀ transfer ∈ s.trans, transfer.number = start.number → allowed s.log input transfer
  | .scriptRun => True

theorem Permits.mono {start : Transfer}
    {allowed other : List TftpEvent → TftpInput → Transfer → Prop}
    {s : TftpState} (hmore : ∀ input transfer, allowed s.log input transfer →
      other s.log input transfer) :
    ∀ {call : TftpCall}, Permits start allowed s call → Permits start other s call
  | .request _ _ _ _ _ _, _ => trivial
  | .check _, h => fun hstart transfer hmem heq ↦ hmore _ _ (h hstart transfer hmem heq)
  | .scriptRun, _ => trivial

namespace TransferRule

variable {start : Transfer} {allowed : TftpInput → Transfer → Prop}
    (rule : TransferRule start allowed)

structure Inv (s : TftpState) : Prop where
  active : .started start ∈ s.log → ∀ transfer ∈ s.trans, transfer.number = start.number →
    rule.active s.log transfer
  sent : .started start ∈ s.log → ∀ n packet, .sent start.number n packet ∈ s.log →
    rule.sent n packet
  finished : .started start ∈ s.log → ∀ done ∈ s.doneTrans, done.number = start.number →
    rule.finished s.log

variable {rule} {s : TftpState}

theorem checkTransfers_spec (input : TftpInput) (transfers : List Transfer) :
    ∀ {log : List TftpEvent},
    (∀ transfer ∈ transfers, transfer.number = start.number → rule.active log transfer) →
    (∀ transfer ∈ transfers, transfer.number = start.number → allowed input transfer) →
    (∀ n packet, .sent start.number n packet ∈ (checkTransfers input transfers).2.2 →
      rule.sent n packet) ∧
    (∀ transfer ∈ (checkTransfers input transfers).1, transfer.number = start.number →
      rule.active ((checkTransfers input transfers).2.2 ++ log) transfer) ∧
    ∀ transfer ∈ (checkTransfers input transfers).2.1, transfer.number = start.number →
      rule.finished ((checkTransfers input transfers).2.2 ++ log) := by
  induction transfers with
  | nil => simp [checkTransfers]
  | cons first rest ih =>
    intro log hactive hallowed
    obtain ⟨hsent, hkept, hfinished⟩ := @ih ((first.check input).2.2 ++ log)
      (fun transfer hmem hnumber ↦
        rule.active_mono _ (hactive transfer (List.mem_cons_of_mem _ hmem) hnumber))
      fun transfer hmem ↦ hallowed transfer (List.mem_cons_of_mem _ hmem)
    obtain ⟨hnumber, hown⟩ := number_check input first
    have hfirst : first.number = start.number →
        Leaves rule.active rule.sent rule.finished start.number log (first.check input) := fun heq ↦
      rule.check (hactive first List.mem_cons_self heq) heq (hallowed first List.mem_cons_self heq)
    unfold checkTransfers
    dsimp only
    rw [List.append_assoc]
    refine ⟨fun n packet hmem ↦ ?_, fun transfer hmem heq ↦ ?_, fun transfer hmem heq ↦ ?_⟩
    · rcases List.mem_append.mp hmem with hmem | hmem
      · exact hsent n packet hmem
      · exact (hfirst (hown _ hmem).number_eq.symm).sent n packet hmem
    · split_ifs at hmem with hfate
      · rcases List.mem_cons.mp hmem with rfl | hmem
        · exact rule.active_mono _ ((hfirst (hnumber.symm.trans heq)).kept hfate)
        · exact hkept transfer hmem heq
      · exact hkept transfer hmem heq
    · split_ifs at hmem with hfate
      · rcases List.mem_append.mp hmem with hmem | hmem
        · exact hfinished transfer hmem heq
        · rw [List.mem_singleton.mp hmem] at heq
          exact rule.finished_mono _ ((hfirst (hnumber.symm.trans heq)).done hfate)
      · exact hfinished transfer hmem heq

theorem Inv.check (h : rule.Inv s) (input : TftpInput)
    (hallowed : .started start ∈ s.log →
      ∀ transfer ∈ s.trans, transfer.number = start.number → allowed input transfer) :
    rule.Inv (checkTftpListeners s input) := by
  obtain ⟨-, -, hevents⟩ := number_checkTransfers input s.trans
  -- a transfer never starts here
  have hstarted : .started start ∈ (checkTransfers input s.trans).2.2 ++ s.log →
    .started start ∈ s.log := fun hmem ↦ by
    rcases List.mem_append.mp hmem with hmem | hmem
    · obtain ⟨_, _, hnever⟩ := hevents _ hmem
      exact hnever.elim
    · exact hmem
  have hspec := fun hstart ↦ checkTransfers_spec input s.trans (h.active (hstarted hstart))
    (hallowed (hstarted hstart))
  refine ⟨fun hstart ↦ (hspec hstart).2.1, fun hstart n packet hmem ↦ ?_,
    fun hstart done hmem heq ↦ ?_⟩
  · rcases List.mem_append.mp hmem with hmem | hmem
    · exact (hspec hstart).1 n packet hmem
    · exact h.sent (hstarted hstart) n packet hmem
  · rcases List.mem_append.mp hmem with hmem | hmem
    · exact (hspec hstart).2.2 done hmem heq
    · exact rule.finished_mono _ (h.finished (hstarted hstart) done hmem heq)

theorem Inv.scriptRun (h : rule.Inv s) : rule.Inv (doTftpScriptRun s) :=
  ⟨h.active, h.sent, fun hstart done hmem ↦ h.finished hstart done (List.mem_of_mem_tail hmem)⟩

theorem Inv.request (h : rule.Inv s) (hbounds : Numbered s) (env : TftpEnv) (now : ℤ)
    (request : TftpRequest) (expansion : UInt32) (readable : Bool) (buffer errstr : List UInt8) :
    rule.Inv (tftpRequest env s now request expansion readable buffer errstr) := by
  have hnumber := newTransfer_number env s.requests now request expansion
  unfold tftpRequest
  dsimp only
  generalize newTransfer env s.requests now request expansion = transfer at hnumber
  have hsame := number_getBlock transfer readable
  have hfirst : ∀ first packet, getBlock transfer readable = (first, some packet) →
    transfer = start → ∀ log,
      rule.active (.sent first.number first.block packet :: log) first ∧
        rule.sent first.block packet := by
    rintro first packet hblock rfl log
    exact rule.begins log hblock
  generalize getBlock transfer readable = result at hsame hfirst
  obtain ⟨first, _ | packet⟩ := result
  · dsimp only
    have hlater := fun hactive ↦ @rule.active_mono s.log hactive
      [.error transfer.number (tftpErrOops buffer transfer.file.filename errstr)]
    refine ⟨fun hstart other hmem heq ↦ ?_, fun hstart n packet hmem ↦
      ?_, fun hstart done hmem heq ↦ ?_⟩
    · exact hlater _ (h.active (by simpa using hstart) other hmem heq)
    · exact h.sent (by simpa using hstart) n packet (by simpa using hmem)
    · exact rule.finished_mono [_] (h.finished (by simpa using hstart) done hmem heq)
  · dsimp only at hsame hfirst ⊢
    have hnew : first.number = s.requests := hsame.trans hnumber
    have hbegins := hfirst first packet rfl
    by_cases hown : transfer = start
    · obtain ⟨hactive, hsent⟩ := hbegins hown (.started transfer :: s.log)
      have hrequests : start.number = s.requests := hown ▸ hnumber
      -- nothing had the number of this transfer before
      refine ⟨fun _ other hmem heq ↦ ?_, fun _ n other hmem ↦ ?_, fun _ done hmem heq ↦ ?_⟩
      · rcases List.mem_cons.mp hmem with rfl | hmem
        · exact hactive
        · have hlt := hbounds.trans other hmem
          omega
      · rcases List.mem_cons.mp hmem with heq | hmem
        · obtain ⟨-, rfl, rfl⟩ := TftpEvent.sent.inj heq
          exact hsent
        · have hlog : .sent start.number n other ∈ s.log := by simpa using hmem
          have hlt := hbounds.log _ hlog
          simp only [TftpEvent.number] at hlt
          omega
      · have hlt := hbounds.doneTrans done hmem
        omega
    · have hstarted : .started start ∈ TftpEvent.sent first.number first.block packet :: .started
        transfer :: s.log →
          .started start ∈ s.log := fun hstart ↦ by
        rcases List.mem_cons.mp hstart with heq | hstart
        · cases heq
        · rcases List.mem_cons.mp hstart with heq | hstart
          · exact absurd (TftpEvent.started.inj heq).symm hown
          · exact hstart
      have hother : .started start ∈ s.log → start.number ≠ s.requests := fun hstart heq ↦ by
        have hlt := hbounds.log _ hstart
        rw [TftpEvent.number, heq] at hlt
        exact Nat.lt_irrefl _ hlt
      refine ⟨fun hstart other hmem heq ↦ ?_, fun hstart n other hmem ↦
        ?_, fun hstart done hmem heq ↦ ?_⟩
      · rcases List.mem_cons.mp hmem with rfl | hmem
        · exact absurd (heq.symm.trans hnew) (hother (hstarted hstart))
        · exact rule.active_mono [_, _] (h.active (hstarted hstart) other hmem heq)
      · rcases List.mem_cons.mp hmem with heq | hmem
        · obtain ⟨heq, -, -⟩ := TftpEvent.sent.inj heq
          exact absurd (heq.trans hnew) (hother (hstarted hstart))
        · exact h.sent (hstarted hstart) n other (by simpa using hmem)
      · exact rule.finished_mono [_, _] (h.finished (hstarted hstart) done hmem heq)

variable (rule)

theorem inv {env : TftpEnv}
    (hreach : Reachable (tftpSystem env) (Permits start fun _ ↦ allowed) s) :
    rule.Inv s := by
  refine hreach.invariant rule.Inv ?_ ?_
  · rintro s rfl
    exact ⟨by simp, by simp, by simp⟩
  · rintro s call next hbefore hinv hallowed rfl
    have hbounds : Numbered s := TftpReachable.numbered (hbefore.mono fun _ _ _ ↦ trivial)
    cases call with
    | request now request expansion readable buffer errstr =>
      exact hinv.request hbounds env now request expansion readable buffer errstr
    | check input => exact hinv.check input hallowed
    | scriptRun => exact hinv.scriptRun

end TransferRule

end CrossBreeder.Dnsmasq
