import CrossBreeder.Dnsmasq.TftpRuns

/-!
# Files in octet mode

Where a transfer is in its file is the rule `octetRule`, as long as the counter is large enough and
an acknowledgement is for the block that it is taken for. `delivers_iff` says for which files all of
this works. In one with more than `2 ^ 16` blocks an acknowledgement that comes late can have the
number of a later block, which then counts as acknowledged (`exists_stale`).
-/

namespace CrossBreeder.Dnsmasq

open Foundation

/-! ### What a transfer delivers -/

def dataPacket (transfer : Transfer) (n : ℕ) : List UInt8 :=
  shortBytes opData ++ shortBytes (UInt16.ofNat n) ++
    (transfer.file.content.drop ((n - 1) * transfer.blocksize.toNat)).take transfer.blocksize.toNat

def lastBlock (transfer : Transfer) :
    ℕ := transfer.file.content.length / transfer.blocksize.toNat + 1

/-- What was sent for a transfer: each packet with a number carries the bytes of the file at its
place, it is the same each time, it is short exactly if it is the last one, and the transfer is done
only when that one was acknowledged. -/
structure Delivers (s : TftpState) (transfer : Transfer) : Prop where
  carries : ∀ n packet, .sent transfer.number n packet ∈ s.log → n ≠ 0 →
    packet = dataPacket transfer n.toNat
  identical : ∀ n packet other, .sent transfer.number n packet ∈ s.log →
    .sent transfer.number n other ∈ s.log → n ≠ 0 → packet = other
  short : ∀ n packet, .sent transfer.number n packet ∈ s.log → n ≠ 0 →
    (packet.length < transfer.blocksize.toNat + 4 ↔ n.toNat = lastBlock transfer)
  acknowledged : ∀ done ∈ s.doneTrans, done.number = transfer.number →
    ∃ n : UInt32, n.toNat = lastBlock transfer ∧ .acked transfer.number n ∈ s.log

/-- An acknowledgement with the number of the block that was sent last is for that block, and not
for one before it whose number has the same lower 16 bits. -/
def Current (input : TftpInput) (transfer : Transfer) : Prop :=
  transfer.HasAck input transfer.block.toUInt16 → input.answered transfer.number = transfer.block

/-- An acknowledgement, however late, is for a packet that was sent, and has its number. -/
def Genuine (log : List TftpEvent) (input : TftpInput) (transfer : Transfer) : Prop :=
  ∀ number, transfer.HasAck input number → number = (input.answered transfer.number).toUInt16 ∧
    ∃ packet, .sent transfer.number (input.answered transfer.number) packet ∈ log

structure Countable (transfer : Transfer) : Prop where
  octet : transfer.netascii = false
  blocksize : 0 < transfer.blocksize.toNat
  length : transfer.file.content.length < (2 ^ 32 - 1) * transfer.blocksize.toNat

/-- The numbers of blocks: from the first one to the last one, or any number if the counter comes
back to 0. -/
def InTransfer (start : Transfer) (n : UInt32) : Prop :=
  start.block.toNat ≤ n.toNat ∧ n.toNat ≤ lastBlock start ∨ lastBlock start = 2 ^ 32 - 1

/-- Where a transfer is: at the block that the counter tells, or behind the last block with a
counter that has come back to 0. -/
structure Progress (log : List TftpEvent) (start transfer : Transfer) : Prop where
  number : transfer.number = start.number
  blocksize : transfer.blocksize = start.blocksize
  file : transfer.file = start.file
  netascii : transfer.netascii = start.netascii
  expansion : transfer.block ≠ 0 → transfer.expansion = 0
  place : (transfer.offset = (transfer.block.toNat - 1) * start.blocksize.toNat ∧
      start.block.toNat ≤ transfer.block.toNat ∧ transfer.block.toNat ≤ lastBlock start) ∨
    (transfer.block = 0 ∧ lastBlock start = 2 ^ 32 - 1 ∧
      start.file.content.length < transfer.offset ∧
      ∃ n : UInt32, n.toNat = lastBlock start ∧ .acked start.number n ∈ log)

structure Ready (log : List TftpEvent) (start transfer : Transfer) : Prop where
  number : transfer.number = start.number
  blocksize : transfer.blocksize = start.blocksize
  file : transfer.file = start.file
  netascii : transfer.netascii = start.netascii
  place : (transfer.offset = (transfer.block.toNat - 1) * start.blocksize.toNat ∧
      start.block.toNat ≤ transfer.block.toNat ∧ transfer.block.toNat ≤ lastBlock start) ∨
    ((transfer.block = 0 → lastBlock start = 2 ^ 32 - 1) ∧
      start.file.content.length < transfer.offset ∧
      ∃ n : UInt32, n.toNat = lastBlock start ∧ .acked start.number n ∈ log)

section Blocks

variable {start : Transfer}

theorem length_dataPacket (n : ℕ) : (dataPacket start n).length =
    4 + min start.blocksize.toNat
      (start.file.content.length - (n - 1) * start.blocksize.toNat) := by
  simp [dataPacket, shortBytes]
  omega

theorem lastBlock_le (start : Transfer) :
    (lastBlock start - 1) * start.blocksize.toNat ≤ start.file.content.length := by
  unfold lastBlock
  rw [Nat.add_sub_cancel]
  exact Nat.div_mul_le_self _ _

theorem block_start_le {n : ℕ} (hn : n ≤ lastBlock start) :
    (n - 1) * start.blocksize.toNat ≤ start.file.content.length :=
  Nat.le_trans (Nat.mul_le_mul_right _ (Nat.sub_le_sub_right hn 1)) (lastBlock_le start)

theorem lt_lastBlock_mul (h : Countable start) :
    start.file.content.length < lastBlock start * start.blocksize.toNat := by
  unfold lastBlock
  rw [Nat.add_one_mul]
  exact Nat.lt_div_mul_add h.blocksize

theorem Countable.lastBlock_lt (h : Countable start) : lastBlock start < 2 ^ 32 := by
  have hdiv : start.file.content.length / start.blocksize.toNat < 2 ^ 32 - 1 :=
    Nat.div_lt_of_lt_mul (by rw [Nat.mul_comm]; exact h.length)
  unfold lastBlock
  omega

theorem short_dataPacket_iff (h : Countable start) {n : ℕ} (hpos : 0 < n)
    (hn : n ≤ lastBlock start) :
    (dataPacket start n).length < start.blocksize.toNat + 4 ↔ n = lastBlock start := by
  rw [length_dataPacket]
  constructor
  · intro hshort
    by_contra hne
    -- a block before the last one fits into the file
    have hfull : n * start.blocksize.toNat ≤ start.file.content.length := by
      have hle : n ≤ lastBlock start - 1 := by omega
      exact Nat.le_trans (Nat.mul_le_mul_right _ hle) (lastBlock_le start)
    have hsplit : n * start.blocksize.toNat =
      (n - 1) * start.blocksize.toNat + start.blocksize.toNat := by
      rw [← Nat.add_one_mul, Nat.sub_add_cancel hpos]
    omega
  · rintro rfl
    have hlast := lt_lastBlock_mul h
    have hsplit : lastBlock start * start.blocksize.toNat =
        (lastBlock start - 1) * start.blocksize.toNat + start.blocksize.toNat := by
      rw [← Nat.add_one_mul, Nat.sub_add_cancel hpos]
    have hblocksize := h.blocksize
    omega

end Blocks

section Transfers

variable {log : List TftpEvent} {start transfer : Transfer}

theorem Progress.mono {more : List TftpEvent} (h : Progress log start transfer) :
    Progress (more ++ log) start transfer := by
  refine ⟨h.number, h.blocksize, h.file, h.netascii, h.expansion, h.place.imp_right ?_⟩
  rintro ⟨hzero, hwrap, hover, n, hn, hacked⟩
  exact ⟨hzero, hwrap, hover, n, hn, List.mem_append_right _ hacked⟩

theorem Progress.inTransfer (h : Progress log start transfer) : InTransfer start transfer.block :=
  h.place.imp And.right fun ⟨_, hwrap, _⟩ ↦ hwrap

theorem Progress.ready (h : Progress log start transfer) : Ready log start transfer :=
  ⟨h.number, h.blocksize, h.file, h.netascii,
    h.place.imp_right fun ⟨_, hwrap, hover⟩ ↦ ⟨fun _ ↦ hwrap, hover⟩⟩

theorem Progress.acknowledge (h : Progress log start transfer) (hcount : Countable start)
    (now : ℤ) :
    Ready (.acked transfer.number transfer.block :: log) start (transfer.acknowledge now) := by
  refine ⟨h.number, h.blocksize, h.file, h.netascii, ?_⟩
  unfold Transfer.acknowledge
  have hbound := hcount.lastBlock_lt
  rcases h.place with ⟨hoffset, hfirst, hblock⟩ | ⟨hzero, hwrap, hover, n, hn, hacked⟩
  · have hnext : (transfer.block + 1).toNat = (transfer.block.toNat + 1) % 2 ^ 32 := by
      rw [UInt32.toNat_add]
      rfl
    by_cases hzero : transfer.block = 0
    · refine .inl ⟨?_, ?_, ?_⟩
      · simp [hzero, hoffset]
      · rw [hzero] at hfirst
        exact Nat.le_trans hfirst (Nat.zero_le _)
      · simp [hzero, lastBlock]
    · have hpos := (ne_zero_iff_toNat _).mp hzero
      have hadvance : transfer.offset + (transfer.blocksize - transfer.expansion).toNat =
          transfer.block.toNat * start.blocksize.toNat := by
        rw [h.expansion hzero, UInt32.sub_zero, h.blocksize, hoffset, ← Nat.add_one_mul,
          Nat.sub_add_cancel hpos]
      simp only [ne_eq, hzero, not_false_eq_true, if_true, hadvance]
      by_cases hlast : transfer.block.toNat = lastBlock start
      · refine .inr ⟨fun hwrap ↦ ?_, ?_, transfer.block, hlast, ?_⟩
        · rw [hwrap] at hnext
          have hnone : (0 : UInt32).toNat = 0 := rfl
          omega
        · rw [hlast]
          exact lt_lastBlock_mul hcount
        · rw [h.number]
          exact List.mem_cons_self
      · have hlater : (transfer.block + 1).toNat = transfer.block.toNat + 1 := by omega
        rw [hlater]
        exact .inl ⟨rfl, by omega, by omega⟩
  · refine .inr ⟨fun hone ↦ ?_, ?_, n, hn, List.mem_cons_of_mem _ hacked⟩
    · simp [hzero] at hone
    · simp only [hzero, ne_eq, not_true_eq_false, if_false]
      exact hover

def SentWell (start : Transfer) (n : UInt32) (packet : List UInt8) : Prop :=
  InTransfer start n ∧ (n ≠ 0 → packet = dataPacket start n.toNat ∧
    (packet.length < start.blocksize.toNat + 4 ↔ n.toNat = lastBlock start))

theorem getBlock_octet (hoctet : transfer.netascii = false) (readable : Bool) :
    getBlock transfer readable =
      if transfer.block = 0 then (transfer, some (oackPacket transfer))
      else if transfer.file.content.length < transfer.offset then (transfer, some [])
      else if readable = false then (transfer, none)
      else ({ transfer with expansion := 0 },
    some (shortBytes opData ++ shortBytes transfer.block.toUInt16 ++
        (transfer.file.content.drop transfer.offset).take transfer.blocksize.toNat)) := by
  unfold getBlock
  rw [hoctet]
  rfl

theorem Ready.getBlock (h : Ready log start transfer) (hcount : Countable start) (readable : Bool) :
    (∀ packet, (getBlock transfer readable).2 = some packet → packet ≠ [] →
      Progress log start (getBlock transfer readable).1 ∧
        SentWell start (getBlock transfer readable).1.block packet) ∧
    ((getBlock transfer readable).2 = some [] →
      ∃ n : UInt32, n.toNat = lastBlock start ∧ .acked start.number n ∈ log) := by
  rw [getBlock_octet (h.netascii.trans hcount.octet)]
  split_ifs with hzero hover hread
  · refine ⟨fun packet hpacket _ ↦ ?_, fun hempty ↦ ?_⟩
    · have hprogress : Progress log start transfer :=
        ⟨h.number, h.blocksize, h.file, h.netascii, fun hne ↦ absurd hzero hne,
          h.place.imp_right fun ⟨hwrap, hend⟩ ↦ ⟨hzero, hwrap hzero, hend⟩⟩
      exact ⟨hprogress, hprogress.inTransfer, fun hne ↦ absurd hzero hne⟩
    · simp [oackPacket, shortBytes] at hempty
  · refine ⟨fun packet hpacket hne ↦ absurd (Option.some.inj hpacket).symm hne, fun _ ↦ ?_⟩
    rcases h.place with ⟨hoffset, -, hblock⟩ | ⟨-, -, hacked⟩
    · rw [hoffset, h.file] at hover
      exact absurd (block_start_le hblock) (Nat.not_le.mpr hover)
    · exact hacked
  · exact ⟨fun packet hpacket ↦ absurd hpacket (by simp), fun hempty ↦ absurd hempty (by simp)⟩
  · refine ⟨fun packet hpacket _ ↦ ?_, fun hempty ↦ absurd hempty (by simp [shortBytes])⟩
    obtain rfl := Option.some.inj hpacket
    rcases h.place with ⟨hoffset, hfirst, hblock⟩ | ⟨-, hend, -⟩
    · have hprogress : Progress log start { transfer with expansion := 0 } :=
        ⟨h.number, h.blocksize, h.file, h.netascii, fun _ ↦ rfl, .inl ⟨hoffset, hfirst, hblock⟩⟩
      refine ⟨hprogress, hprogress.inTransfer, fun hne ↦ ?_⟩
      have hpacket : shortBytes opData ++ shortBytes transfer.block.toUInt16 ++
          (transfer.file.content.drop transfer.offset).take transfer.blocksize.toNat =
          dataPacket start transfer.block.toNat := by
        rw [hoffset, h.file, h.blocksize]
        rfl
      rw [hpacket]
      exact ⟨rfl, short_dataPacket_iff hcount ((ne_zero_iff_toNat _).mp hne) hblock⟩
    · rw [h.file] at hover
      exact absurd hend hover

def LastAcked (start : Transfer) (log : List TftpEvent) : Prop :=
  ∃ n : UInt32, n.toNat = lastBlock start ∧ .acked start.number n ∈ log

def Checked (log : List TftpEvent) (start : Transfer) (result : Transfer × Fate × List TftpEvent) :
    Prop :=
  Leaves (fun log ↦ Progress log start) (SentWell start) (LastAcked start) start.number log result

theorem Ready.retransmit (h : Ready log start transfer) (hcount : Countable start) (readable : Bool)
    (buffer errstr : List UInt8) :
    Checked log start (transfer.retransmit readable buffer errstr) := by
  unfold Transfer.retransmit
  dsimp only
  have hready :
    Ready log start { transfer with timeout := transfer.timeout + (1 + 2 ^ transfer.backoff) } :=
    ⟨h.number, h.blocksize, h.file, h.netascii, h.place⟩
  have hblock := hready.getBlock hcount readable
  generalize Dnsmasq.getBlock _ readable = result at hblock
  obtain ⟨next, _ | packet⟩ := result
  · exact ⟨by simp, by simp, by simp⟩
  · obtain ⟨hpacket, hempty⟩ := hblock
    dsimp only at hpacket hempty ⊢
    split_ifs with hfail hend
    · exact ⟨by simp, by simp, by simp⟩
    · exact ⟨by simp, by simp, fun _ ↦ hempty (by rw [hend])⟩
    · obtain ⟨hprogress, hwell⟩ := hpacket packet rfl hend
      refine ⟨?_, fun _ ↦ ?_, by simp⟩
      · intro n sent hsent
        simp only [List.mem_singleton, TftpEvent.sent.injEq] at hsent
        rw [hsent.2.1, hsent.2.2]
        exact hwell
      · exact Progress.mono ⟨hprogress.number, hprogress.blocksize, hprogress.file,
          hprogress.netascii, hprogress.expansion, hprogress.place⟩

theorem Progress.check (h : Progress log start transfer) (hcount : Countable start)
    {input : TftpInput} (hcurrent : Current input transfer) :
    Checked log start (transfer.check input) := by
  rcases taken_cases input transfer with ⟨hack, htaken⟩ | ⟨timeout, backoff, htaken, hsame⟩
  · rw [hcurrent hack] at htaken
    refine leaves_check (fun _ ↦ ?_) fun hlater ↦ ?_
    · rw [htaken]
      exact (h.acknowledge hcount input.now).retransmit hcount _ _ _
    · rw [htaken] at hlater
      exact absurd hlater (Int.lt_irrefl input.now)
  · have hready : Ready log start { transfer with timeout := timeout, backoff := backoff } :=
      ⟨h.number, h.blocksize, h.file, h.netascii, h.ready.place⟩
    refine leaves_check (fun _ ↦ ?_) fun hlater ↦ ?_
    · rw [htaken]
      exact hready.retransmit hcount _ _ _
    · rw [htaken] at hlater ⊢
      obtain ⟨rfl, rfl⟩ := hsame hlater
      exact h

end Transfers

/-! ### Runs -/

theorem ready_newTransfer (env : TftpEnv) (number : ℕ) (now : ℤ) (request : TftpRequest)
    (expansion : UInt32) (log : List TftpEvent) :
    Ready log (newTransfer env number now request expansion)
      (newTransfer env number now request expansion) := by
  refine ⟨rfl, rfl, rfl, rfl, .inl ?_⟩
  rw [newTransfer_offset]
  rcases newTransfer_block env number now request expansion with hone | hzero
  · rw [hone]
    exact ⟨by simp, le_rfl, by simp [lastBlock]⟩
  · rw [hzero]
    exact ⟨by simp, le_rfl, by simp [lastBlock]⟩

def octetRule {start : Transfer} (hcount : Countable start) (hready : Ready [] start start) :
    TransferRule start Current where
  active log := Progress log start
  sent := SentWell start
  finished := LastAcked start
  active_mono _ h := h.mono
  finished_mono := fun _ ⟨n, hn, hacked⟩ ↦ ⟨n, hn, List.mem_append_right _ hacked⟩
  begins := by
    intro readable first packet log hblock
    obtain ⟨hpacket, hempty⟩ := hready.getBlock hcount readable
    rw [hblock] at hpacket hempty
    obtain ⟨hprogress, hsent⟩ := hpacket packet rfl fun hnone ↦ by
      obtain ⟨_, _, hnever⟩ := hempty (by rw [hnone])
      simp at hnever
    have hlater := @Progress.mono _ _ _ (.sent first.number first.block packet :: log) hprogress
    rw [List.append_nil] at hlater
    exact ⟨hlater, hsent⟩
  check h _ hcurrent := h.check hcount hcurrent

/-- A file that the counter is large enough for is delivered, if acknowledgements are for the blocks
they are taken for. -/
theorem delivers_of_countable {env : TftpEnv} {s : TftpState} {start : Transfer}
    (hreach : Reachable (tftpSystem env) (Permits start fun _ ↦ Current) s)
    (hstart : .started start ∈ s.log) (hcount : Countable start) (hready : Ready [] start start) :
    Delivers s start := by
  have hinv := (octetRule hcount hready).inv hreach
  have hsent : ∀ n packet, .sent start.number n packet ∈ s.log → SentWell start n packet :=
    hinv.sent hstart
  refine ⟨fun n packet hmem hne ↦ ((hsent n packet hmem).2 hne).1,
    fun n packet other hmem hother hne ↦ ?_,
    fun n packet hmem hne ↦ ((hsent n packet hmem).2 hne).2, hinv.finished hstart⟩
  rw [((hsent n packet hmem).2 hne).1, ((hsent n other hother).2 hne).1]

/-- In a file with few blocks, no two of them have numbers with the same lower 16 bits, and so every
acknowledgement is for the block that it is taken for. -/
theorem current_of_genuine {env : TftpEnv} {s : TftpState} {start : Transfer}
    (hreach : Reachable (tftpSystem env) (Permits start Genuine) s) (hcount : Countable start)
    (hready : Ready [] start start) (hfew : lastBlock start < start.block.toNat + 2 ^ 16)
    (hfirst : start.block.toNat ≤ 1) :
    Reachable (tftpSystem env) (Permits start fun _ ↦ Current) s := by
  have hwrap : lastBlock start ≠ 2 ^ 32 - 1 := by omega
  induction hreach with
  | start hinitial => exact .start hinitial
  | @step s next call _ hgenuine hstep ih =>
    refine ih.step ?_ hstep
    have hinv := (octetRule hcount hready).inv ih
    cases call with
    | request now request expansion readable buffer errstr => trivial
    | scriptRun => trivial
    | check input =>
      intro hstart transfer hmem hnumber hack
      obtain ⟨hsame, packet, hsent⟩ := hgenuine hstart transfer hmem hnumber _ hack
      have hprogress : Progress s.log start transfer := hinv.active hstart transfer hmem hnumber
      rw [hnumber] at hsent
      have hwell : SentWell start _ packet := hinv.sent hstart _ _ hsent
      have hblock := hprogress.inTransfer.resolve_right hwrap
      have hanswered := hwell.1.resolve_right hwrap
      have hlow := congrArg UInt16.toNat hsame
      rw [UInt32.toNat_toUInt16, UInt32.toNat_toUInt16] at hlow
      refine UInt32.toNat_inj.mp ?_
      rw [hnumber]
      rw [hnumber] at hlow
      omega

/-! ### Files that are too long -/

/-- An acknowledgement with the number of the packet that was sent last, for some block. -/
def ackInput (transfer : Transfer) (answered : UInt32) : TftpInput where
  now := 0
  packet _ := some (shortBytes opAck ++ shortBytes transfer.block.toUInt16)
  answered _ := answered
  readable _ := true
  buffer := []
  errstr := []

structure Underway (env : TftpEnv) (allowed : List TftpEvent → TftpInput → Transfer → Prop)
    (start : Transfer) (s : TftpState) (transfer : Transfer) : Prop where
  reachable : Reachable (tftpSystem env) (Permits start allowed) s
  started : .started start ∈ s.log
  alone : s.trans = [transfer]
  number : transfer.number = start.number
  blocksize : transfer.blocksize = start.blocksize
  file : transfer.file = start.file
  octet : transfer.netascii = false
  latest : ∃ packet, .sent start.number transfer.block packet ∈ s.log
  earlier : ∀ n : UInt32, start.block.toNat ≤ n.toNat → n.toNat ≤ transfer.block.toNat →
    ∃ packet, .sent start.number n packet ∈ s.log
  sent : transfer.block ≠ 0 → transfer.expansion = 0 ∧ .sent start.number transfer.block
    (shortBytes opData ++ shortBytes transfer.block.toUInt16 ++
      (start.file.content.drop transfer.offset).take start.blocksize.toNat) ∈ s.log

section AckInputs

variable {transfer : Transfer} {answered : UInt32} {log : List TftpEvent}

theorem shortAt_ack (block : UInt16) : shortAt (shortBytes opAck ++ shortBytes block) 0 = opAck ∧
    shortAt (shortBytes opAck ++ shortBytes block) 2 = block := by
  simp [shortAt, shortBytes]

theorem receive_ackInput (transfer : Transfer) (answered : UInt32) :
    transfer.receive 0 (shortBytes opAck ++ shortBytes transfer.block.toUInt16) answered =
      (transfer.acknowledge 0, [.acked transfer.number answered]) := by
  unfold Transfer.receive
  rw [if_neg (by simp [shortBytes]), if_pos (shortAt_ack _)]

theorem current_ackInput (transfer : Transfer) :
    Current (ackInput transfer transfer.block) transfer :=
  fun _ ↦ rfl

theorem genuine_ackInput (hsame : transfer.block.toUInt16 = answered.toUInt16)
    (hsent : ∃ packet, .sent transfer.number answered packet ∈ log) :
    Genuine log (ackInput transfer answered) transfer := by
  rintro number ⟨packet, hpacket, -, -, hnumber⟩
  obtain rfl := Option.some.inj hpacket
  exact ⟨(hnumber.symm.trans (shortAt_ack _).2).trans hsame, hsent⟩

end AckInputs

theorem exists_getBlock {transfer : Transfer} (hoctet : transfer.netascii = false)
    (hgoes : transfer.block = 0 ∨ transfer.offset ≤ transfer.file.content.length) :
    ∃ (expansion : UInt32) (packet : List UInt8),
      getBlock transfer true =
      ({ transfer with expansion := expansion }, some packet) ∧ packet ≠ [] ∧
      (transfer.block ≠ 0 → expansion = 0 ∧ packet = shortBytes opData ++
        shortBytes transfer.block.toUInt16 ++
        (transfer.file.content.drop transfer.offset).take transfer.blocksize.toNat) := by
  rw [getBlock_octet hoctet]
  by_cases hzero : transfer.block = 0
  · rw [if_pos hzero]
    exact ⟨transfer.expansion, _, rfl, by simp [oackPacket, shortBytes], fun hne ↦ absurd hzero hne⟩
  · rw [if_neg hzero, if_neg (Nat.not_lt.mpr (hgoes.resolve_left hzero)), if_neg (by simp)]
    exact ⟨0, _, rfl, by simp [shortBytes], fun _ ↦ ⟨rfl, rfl⟩⟩

/-- A transfer that is due and is not at its end sends a packet. -/
theorem exists_retransmit {transfer : Transfer} (hoctet : transfer.netascii = false)
    (hbackoff : transfer.backoff = 0)
    (hgoes : transfer.block = 0 ∨ transfer.offset ≤ transfer.file.content.length) :
    ∃ (next : Transfer) (packet : List UInt8),
      transfer.retransmit true [] [] = (next, .kept, [.sent next.number next.block packet]) ∧
      next.block = transfer.block ∧ next.offset = transfer.offset ∧ next.number = transfer.number ∧
      next.blocksize = transfer.blocksize ∧ next.file = transfer.file ∧ next.netascii = false ∧
      (next.block ≠ 0 → next.expansion = 0 ∧ packet = shortBytes opData ++
      shortBytes next.block.toUInt16 ++
        (transfer.file.content.drop next.offset).take transfer.blocksize.toNat) := by
  unfold Transfer.retransmit
  dsimp only
  obtain ⟨expansion, packet, hblock, hne, hdata⟩ :=
    @exists_getBlock { transfer with timeout := transfer.timeout + (1 + 2 ^ transfer.backoff) }
      hoctet hgoes
  rw [hblock]
  dsimp only
  rw [if_neg (by omega), if_neg hne]
  exact ⟨_, packet, rfl, rfl, rfl, rfl, rfl, rfl, hoctet, hdata⟩

theorem retransmit_ended {transfer : Transfer} (hblock : transfer.block ≠ 0)
    (hbackoff : transfer.backoff = 0) (hend : transfer.file.content.length < transfer.offset) :
    ∃ next, transfer.retransmit true [] [] = (next, .done, []) ∧ next.number = transfer.number := by
  unfold Transfer.retransmit getBlock
  dsimp only
  rw [if_neg hblock, if_pos hend]
  dsimp only
  rw [if_neg (by omega), if_pos rfl]
  exact ⟨_, rfl, rfl⟩

section LongFiles

variable {env : TftpEnv} {start transfer : Transfer} {s : TftpState} {answered : UInt32}
  {allowed : List TftpEvent → TftpInput → Transfer → Prop}

/-- An acknowledgement is for the packet that was sent last, and that packet was sent. -/
abbrev Prompt (log : List TftpEvent) (input : TftpInput) (transfer : Transfer) : Prop :=
  Current input transfer ∧ Genuine log input transfer

theorem Underway.permits (h : Underway env allowed start s transfer)
    (hallowed : allowed s.log (ackInput transfer answered) transfer) :
    Permits start allowed s (.check (ackInput transfer answered)) := by
  intro _ other hmem _
  rw [h.alone] at hmem
  rwa [List.mem_singleton.mp hmem]

theorem Underway.genuine (h : Underway env Prompt start s transfer) :
    Underway env Genuine start s transfer :=
  { h with reachable := h.reachable.mono fun _ _ ↦ Permits.mono fun _ _ ↦ And.right }

theorem Underway.prompt (h : Underway env allowed start s transfer) :
    Prompt s.log (ackInput transfer transfer.block) transfer :=
  ⟨current_ackInput transfer, genuine_ackInput rfl (h.number ▸ h.latest)⟩

/-- The client acknowledges, and the next packet is sent. -/
theorem Underway.ack (h : Underway env allowed start s transfer)
    (hallowed : allowed s.log (ackInput transfer answered) transfer)
    (hgoes : transfer.block + 1 = 0 ∨ (transfer.acknowledge 0).offset ≤ start.file.content.length) :
    ∃ following next, Underway env allowed start following next ∧ next.block = transfer.block + 1 ∧
      next.offset = (transfer.acknowledge 0).offset ∧
      ∀ n, .acked start.number n ∈ following.log → n = answered ∨
      .acked start.number n ∈ s.log := by
  rw [← h.file] at hgoes
  obtain ⟨next, packet, hnext, hblock, hoffset, hnumber, hblocksize, hfile, hoctet, hsent⟩ :=
    @exists_retransmit (transfer.acknowledge 0) h.octet rfl hgoes
  have hcheck : transfer.check (ackInput transfer answered) =
      (next, .kept, [.sent next.number next.block packet, .acked transfer.number answered]) := by
    dsimp only [Transfer.check, ackInput]
    rw [receive_ackInput]
    rw [if_pos (by exact Int.le_refl 0), hnext]
    rfl
  have hlisteners : s.call env (.check (ackInput transfer answered)) =
      { s with
        trans := [next]
        log := [.sent next.number next.block packet, .acked transfer.number answered] ++
          s.log } := by
    simp [TftpState.call, checkTftpListeners, h.alone, checkTransfers, hcheck]
  have hown : next.number = start.number := hnumber.trans h.number
  have hlatest : .sent start.number next.block packet ∈
      [.sent next.number next.block packet, .acked transfer.number answered] ++ s.log := by
    rw [hown]
    exact List.mem_cons_self
  refine ⟨_, next, ⟨h.reachable.step (h.permits hallowed) hlisteners.symm, ?_, rfl, hown,
    hblocksize.trans h.blocksize, hfile.trans h.file, hoctet, ⟨packet, hlatest⟩,
      fun n hfirst hlast ↦ ?_,
    fun hne ↦ ?_⟩, hblock, hoffset, fun n hmem ↦ ?_⟩
  · exact List.mem_append_right _ h.started
  · by_cases hnew : n = next.block
    · exact ⟨packet, hnew ▸ hlatest⟩
    · have hvalue : next.block.toNat = (transfer.block.toNat + 1) % 2 ^ 32 := by
        rw [hblock]
        exact UInt32.toNat_add _ _
      have hother : n.toNat ≠ next.block.toNat := fun heq ↦ hnew (UInt32.toNat_inj.mp heq)
      have hbound := transfer.block.toNat_lt
      obtain ⟨packet, hold⟩ := h.earlier n hfirst (by omega)
      exact ⟨packet, List.mem_append_right _ hold⟩
  · obtain ⟨hexpansion, hpacket⟩ := hsent hne
    refine ⟨hexpansion, ?_⟩
    rw [← h.file, ← h.blocksize, ← hown, hpacket]
    exact List.mem_cons_self
  · simpa [h.number] using hmem

/-- An acknowledgement of what is taken for the last block ends the transfer. -/
theorem Underway.done (h : Underway env allowed start s transfer)
    (hallowed : allowed s.log (ackInput transfer answered) transfer)
    (hblock : transfer.block + 1 ≠ 0)
    (hend : start.file.content.length < (transfer.acknowledge 0).offset) :
    ∃ last, Reachable (tftpSystem env) (Permits start allowed) last ∧ .started start ∈ last.log ∧
      (∃ done ∈ last.doneTrans, done.number = start.number) ∧
      ∀ n, .acked start.number n ∈ last.log → n = answered ∨ .acked start.number n ∈ s.log := by
  rw [← h.file] at hend
  obtain ⟨next, hended, hnext⟩ := @retransmit_ended (transfer.acknowledge 0) hblock rfl hend
  have hcheck : transfer.check (ackInput transfer answered) =
      (next, .done, [.acked transfer.number answered]) := by
    dsimp only [Transfer.check, ackInput]
    rw [receive_ackInput]
    rw [if_pos (by exact Int.le_refl 0), hended]
    rfl
  have hlisteners : s.call env (.check (ackInput transfer answered)) =
      { s with
        trans := []
        doneTrans := next :: s.doneTrans
        log := .acked transfer.number answered :: s.log } := by
    simp [TftpState.call, checkTftpListeners, h.alone, checkTransfers, hcheck]
  refine ⟨_, h.reachable.step (h.permits hallowed) hlisteners.symm,
    List.mem_cons_of_mem _ h.started,
    ⟨next, List.mem_cons_self, hnext.trans h.number⟩, fun n hmem ↦ ?_⟩
  simpa [h.number] using hmem

theorem exists_underway (env : TftpEnv) (request : TftpRequest)
    (hoctet : request.netascii = false) :
    ∃ s transfer, Underway env Prompt (newTransfer env 0 0 request 0) s transfer ∧
      transfer.block = (newTransfer env 0 0 request 0).block ∧ transfer.offset = 0 ∧
      ∀ n, .acked (newTransfer env 0 0 request 0).number n ∉ s.log := by
  have hoffset := newTransfer_offset env 0 0 request 0
  have hnetascii := (newTransfer_netascii env 0 0 request 0).trans hoctet
  generalize hstart : newTransfer env 0 0 request 0 = start at hoffset hnetascii
  obtain ⟨expansion, packet, hblock, -, hdata⟩ := exists_getBlock hnetascii (.inr (by omega))
  have hcall : (⟨[], [], 0, []⟩ : TftpState).call env (.request 0 request 0 true [] []) =
      ⟨[{ start with expansion := expansion }], [], 1,
        [.sent start.number start.block packet, .started start]⟩ := by
    simp only [TftpState.call, tftpRequest, hstart, hblock]
  have hpermits : Permits start Prompt ⟨[], [], 0, []⟩ (.request 0 request 0 true [] []) := trivial
  refine ⟨_, _, ⟨(Reachable.start rfl).step hpermits hcall.symm,
    by simp, rfl, rfl, rfl, rfl, hnetascii,
    ⟨packet, List.mem_cons_self⟩, fun n hfirst hlast ↦ ?_, fun hne ↦ ?_⟩, rfl, hoffset, by simp⟩
  · obtain rfl := UInt32.toNat_inj.mp (le_antisymm hlast hfirst)
    exact ⟨packet, List.mem_cons_self⟩
  · obtain ⟨hexpansion, hpacket⟩ := hdata hne
    exact ⟨hexpansion, by simp [hpacket]⟩

/-- After `m` full blocks the counter is back at a small value if `m` is large. -/
theorem exists_underway_block (env : TftpEnv) (request : TftpRequest)
    (hoctet : request.netascii = false) (m : ℕ)
    (hm : m * (newTransfer env 0 0 request 0).blocksize.toNat ≤ request.file.content.length) :
    ∃ s transfer, Underway env Prompt (newTransfer env 0 0 request 0) s transfer ∧
      transfer.block.toNat = m % (2 ^ 32 - 1) + 1 ∧
      transfer.offset = m * (newTransfer env 0 0 request 0).blocksize.toNat ∧
      (m < 2 ^ 32 - 1 → ∀ n, .acked (newTransfer env 0 0 request 0).number n ∈ s.log →
        n.toNat < transfer.block.toNat) := by
  -- the counter is 0 while the options are acknowledged, and the offset stays as it is
  have hzero : ∀ {s : TftpState} {transfer : Transfer},
      Underway env Prompt (newTransfer env 0 0 request 0) s transfer →
      transfer.block = 0 → transfer.offset ≤ request.file.content.length →
      ∃ following next, Underway env Prompt (newTransfer env 0 0 request 0) following next ∧
        next.block.toNat = 1 ∧ next.offset = transfer.offset ∧
        ∀ n, .acked (newTransfer env 0 0 request 0).number n ∈ following.log →
          n = 0 ∨ .acked (newTransfer env 0 0 request 0).number n ∈ s.log := by
    intro s transfer h hblock hinside
    have hsame : (transfer.acknowledge 0).offset = transfer.offset := by
      simp [Transfer.acknowledge, hblock]
    obtain ⟨following, next, hnext, hone, hoffset, hacks⟩ :=
      h.ack h.prompt (.inr (by simpa [hsame] using hinside))
    exact ⟨following, next, hnext, by simp [hone, hblock], hoffset.trans hsame, hblock ▸ hacks⟩
  induction m with
  | zero =>
    obtain ⟨s, transfer, h, hblock, hoffset, hnone⟩ := exists_underway env request hoctet
    rcases newTransfer_block env 0 0 request 0 with hone | hoack
    · exact ⟨s, transfer, h, by simp [hblock, hone], by simp [hoffset],
        fun _ n hmem ↦ absurd hmem (hnone n)⟩
    · obtain ⟨following, next, hnext, hone, hsame, hacks⟩ :=
        hzero h (hblock.trans hoack) (by omega)
      refine ⟨following, next, hnext, by simp [hone], by simp [hsame, hoffset], fun _ n hmem ↦ ?_⟩
      rw [(hacks n hmem).resolve_right (hnone n), hone]
      decide
  | succ m ih =>
    rw [Nat.add_one_mul] at hm ⊢
    obtain ⟨s, transfer, h, hblock, hoffset, hbefore⟩ := ih (by omega)
    have hne : transfer.block ≠ 0 := (ne_zero_iff_toNat _).mpr (by omega)
    have hadvance : (transfer.acknowledge 0).offset =
        m * (newTransfer env 0 0 request 0).blocksize.toNat +
          (newTransfer env 0 0 request 0).blocksize.toNat := by
      simp [Transfer.acknowledge, hne, (h.sent hne).1, hoffset, h.blocksize]
    obtain ⟨following, next, hnext, hcounter, hplace, hacks⟩ :=
      h.ack h.prompt (.inr (by rw [hadvance]; simpa using hm))
    have hvalue : next.block.toNat = (transfer.block.toNat + 1) % 2 ^ 32 := by
      rw [hcounter, UInt32.toNat_add]
      rfl
    by_cases hwrap : next.block = 0
    · have hnone : next.block.toNat = 0 := by simp [hwrap]
      obtain ⟨last, again, hagain, hone, hsame, -⟩ := hzero hnext hwrap (by omega)
      exact ⟨last, again, hagain, by omega, by omega, fun hfew ↦ by omega⟩
    · have hpos := (ne_zero_iff_toNat _).mp hwrap
      refine ⟨following, next, hnext, by omega, by omega, fun hfew n hmem ↦ ?_⟩
      rcases hacks n hmem with rfl | hold
      · omega
      · have hlt := hbefore (by omega) n hold
        omega

end LongFiles

/-! ### Which files are delivered -/

/-- The short block of a file that is too long has the number of an earlier block. -/
theorem exists_not_delivers (env : TftpEnv) (request : TftpRequest)
    (hoctet : request.netascii = false) (hsize : 0 < (requestBlocksize env request).toNat)
    (hlong : (2 ^ 32 - 1) * (requestBlocksize env request).toNat ≤ request.file.content.length) :
    ∃ s, Reachable (tftpSystem env) (Permits (newTransfer env 0 0 request 0) Prompt) s ∧
      .started (newTransfer env 0 0 request 0) ∈ s.log ∧
      ¬Delivers s (newTransfer env 0 0 request 0) := by
  have hblocks : 2 ^ 32 - 1 ≤ request.file.content.length / (requestBlocksize env request).toNat :=
    (Nat.le_div_iff_mul_le hsize).mpr hlong
  obtain ⟨s, transfer, h, hblock, hoffset, -⟩ := exists_underway_block env request hoctet
    (request.file.content.length / (requestBlocksize env request).toNat) (Nat.div_mul_le_self _ _)
  refine ⟨s, h.reachable, h.started, fun hdelivers ↦ ?_⟩
  have hne : transfer.block ≠ 0 := (ne_zero_iff_toNat _).mpr (by omega)
  have hshort := (hdelivers.short _ _ (h.sent hne).2 hne).mp ?_
  · have hlast : lastBlock (newTransfer env 0 0 request 0) =
        request.file.content.length / (requestBlocksize env request).toNat + 1 := by
      rw [lastBlock, newTransfer_blocksize, newTransfer_file]
    have hbound := transfer.block.toNat_lt
    omega
  · -- less than a block is left of the file
    have hrest := Nat.mod_lt request.file.content.length hsize
    have hsplit := Nat.div_add_mod' request.file.content.length (requestBlocksize env request).toNat
    rw [newTransfer_blocksize] at hoffset
    simp only [List.length_append, List.length_take, List.length_drop, newTransfer_blocksize,
      newTransfer_file, shortBytes, List.length_cons, List.length_nil, hoffset]
    omega

/-- A late acknowledgement of the block 65536 blocks before the last one ends the transfer. -/
theorem exists_stale (env : TftpEnv) (request : TftpRequest) (hoctet : request.netascii = false)
    (hsize : 0 < (requestBlocksize env request).toNat)
    (hlength : request.file.content.length < (2 ^ 32 - 1) * (requestBlocksize env request).toNat)
    (hmany : (newTransfer env 0 0 request 0).block.toNat + 2 ^ 16 ≤
      lastBlock (newTransfer env 0 0 request 0)) :
    ∃ s, Reachable (tftpSystem env) (Permits (newTransfer env 0 0 request 0) Genuine) s ∧
      .started (newTransfer env 0 0 request 0) ∈ s.log ∧
      ¬Delivers s (newTransfer env 0 0 request 0) := by
  have hlast : lastBlock (newTransfer env 0 0 request 0) =
      request.file.content.length / (requestBlocksize env request).toNat + 1 := by
    rw [lastBlock, newTransfer_blocksize, newTransfer_file]
  have hblocks : request.file.content.length / (requestBlocksize env request).toNat < 2 ^ 32 - 1 :=
    Nat.div_lt_of_lt_mul (by rwa [Nat.mul_comm] at hlength)
  obtain ⟨s, transfer, h, hblock, hoffset, hacks⟩ := exists_underway_block env request hoctet
    (request.file.content.length / (requestBlocksize env request).toNat) (Nat.div_mul_le_self _ _)
  rw [Nat.mod_eq_of_lt hblocks, ← hlast] at hblock
  have hne : transfer.block ≠ 0 := (ne_zero_iff_toNat _).mpr (by omega)
  have hbound := transfer.block.toNat_lt
  have hvalue : (UInt32.ofNat (transfer.block.toNat - 2 ^ 16)).toNat =
    transfer.block.toNat - 2 ^ 16 :=
    UInt32.toNat_ofNat_of_lt' (Nat.lt_of_le_of_lt (Nat.sub_le _ _) hbound)
  have hsame : transfer.block.toUInt16 =
      (UInt32.ofNat (transfer.block.toNat - 2 ^ 16)).toUInt16 := by
    refine UInt16.toNat_inj.mp ?_
    rw [UInt32.toNat_toUInt16, UInt32.toNat_toUInt16, hvalue]
    omega
  have hstale : Genuine s.log
      (ackInput transfer (UInt32.ofNat (transfer.block.toNat - 2 ^ 16))) transfer :=
    genuine_ackInput hsame (h.number ▸ h.earlier _ (by omega) (by omega))
  have hend : (newTransfer env 0 0 request 0).file.content.length <
    (transfer.acknowledge 0).offset := by
    rw [newTransfer_blocksize] at hoffset
    have hover := Nat.lt_div_mul_add (a := request.file.content.length) hsize
    simpa [Transfer.acknowledge, hne, (h.sent hne).1, hoffset, h.blocksize, newTransfer_blocksize]
      using hover
  -- no acknowledgement so far is for the last block, and neither is the one that comes now
  have hother : ∀ n, n = UInt32.ofNat (transfer.block.toNat - 2 ^ 16) ∨
      .acked (newTransfer env 0 0 request 0).number n ∈ s.log →
      n.toNat ≠ lastBlock (newTransfer env 0 0 request 0) := by
    rintro n (rfl | hold)
    · omega
    · have hlt := hacks hblocks n hold
      omega
  by_cases hwrap : transfer.block + 1 = 0
  · obtain ⟨following, next, hnext, hcounter, hplace, hbefore⟩ := h.genuine.ack hstale (.inl hwrap)
    rw [hwrap] at hcounter
    have hstays : (next.acknowledge 0).offset = next.offset := by
      simp [Transfer.acknowledge, hcounter]
    obtain ⟨last, hreach, hstart, ⟨done, hmem, hnumber⟩, hafter⟩ :=
      hnext.done hnext.prompt.2 (by simp [hcounter]) (by rwa [hstays, hplace])
    refine ⟨last, hreach, hstart, fun hdelivers ↦ ?_⟩
    obtain ⟨n, hn, hacked⟩ := hdelivers.acknowledged done hmem hnumber
    rcases hafter n hacked with rfl | hold
    · rw [hcounter] at hn
      have hnone : (0 : UInt32).toNat = 0 := rfl
      omega
    · exact hother n (hbefore n hold) hn
  · obtain ⟨last, hreach, hstart, ⟨done, hmem, hnumber⟩, hafter⟩ := h.genuine.done hstale hwrap hend
    refine ⟨last, hreach, hstart, fun hdelivers ↦ ?_⟩
    obtain ⟨n, hn, hacked⟩ := hdelivers.acknowledged done hmem hnumber
    exact hother n (hafter n hacked) hn

/-- In octet mode, a file is delivered in every run in which acknowledgements are taken for the
blocks they are for exactly if it has less than `2 ^ 32 - 1` full blocks, and in every run in which
acknowledgements may come late exactly if no two of its blocks have numbers with the same lower 16
bits. -/
theorem delivers_iff (env : TftpEnv) (request : TftpRequest) (hoctet : request.netascii = false)
    (hsize : 0 < (requestBlocksize env request).toNat) :
    ((∀ s number now expansion,
      Reachable (tftpSystem env)
        (Permits (newTransfer env number now request expansion) fun _ ↦ Current) s →
      .started (newTransfer env number now request expansion) ∈ s.log →
      Delivers s (newTransfer env number now request expansion)) ↔
    request.file.content.length < (2 ^ 32 - 1) * (requestBlocksize env request).toNat) ∧
    ((∀ s number now expansion,
      Reachable (tftpSystem env)
        (Permits (newTransfer env number now request expansion) Genuine) s →
      .started (newTransfer env number now request expansion) ∈ s.log →
      Delivers s (newTransfer env number now request expansion)) ↔
    lastBlock (newTransfer env 0 0 request 0) <
      (newTransfer env 0 0 request 0).block.toNat + 2 ^ 16) := by
  have hcountable : ∀ number now expansion,
      request.file.content.length < (2 ^ 32 - 1) * (requestBlocksize env request).toNat →
      Countable (newTransfer env number now request expansion) := by
    intro number now expansion hlength
    refine ⟨?_, ?_, ?_⟩
    · rw [newTransfer_netascii, hoctet]
    · rw [newTransfer_blocksize]
      exact hsize
    · rw [newTransfer_blocksize, newTransfer_file]
      exact hlength
  refine ⟨⟨fun hall ↦ ?_, fun hlength s number now expansion hreach hstart ↦ ?_⟩,
    ⟨fun hall ↦ ?_, fun hfew s number now expansion hreach hstart ↦ ?_⟩⟩
  · by_contra hlong
    obtain ⟨s, hreach, hstart, hnot⟩ :=
      exists_not_delivers env request hoctet hsize (Nat.not_lt.mp hlong)
    exact hnot (hall s 0 0 0 (hreach.mono fun _ _ ↦ Permits.mono fun _ _ ↦ And.left) hstart)
  · exact delivers_of_countable hreach hstart (hcountable number now expansion hlength)
      (ready_newTransfer env number now request expansion [])
  · by_contra hmany
    by_cases hlength : request.file.content.length <
      (2 ^ 32 - 1) * (requestBlocksize env request).toNat
    · obtain ⟨s, hreach, hstart, hnot⟩ :=
        exists_stale env request hoctet hsize hlength (Nat.not_lt.mp hmany)
      exact hnot (hall s 0 0 0 hreach hstart)
    · obtain ⟨s, hreach, hstart, hnot⟩ :=
        exists_not_delivers env request hoctet hsize (Nat.not_lt.mp hlength)
      exact hnot (hall s 0 0 0 (hreach.mono fun _ _ ↦ Permits.mono fun _ _ ↦ And.right) hstart)
  · have hblock := newTransfer_block_eq env number now request expansion
    have hlast : ∀ number now expansion, lastBlock (newTransfer env number now request expansion) =
        request.file.content.length / (requestBlocksize env request).toNat + 1 := by
      intro number now expansion
      rw [lastBlock, newTransfer_blocksize, newTransfer_file]
    have hfirst : (newTransfer env number now request expansion).block.toNat ≤ 1 := by
      rcases newTransfer_block env number now request expansion with hone | hzero
      · exact (congrArg UInt32.toNat hone).le
      · exact (congrArg UInt32.toNat hzero).trans_le (Nat.zero_le 1)
    rw [hlast] at hfew
    have hlength : request.file.content.length <
        (2 ^ 32 - 1) * (requestBlocksize env request).toNat := by
      rw [hblock] at hfirst
      exact (Nat.div_lt_iff_lt_mul hsize).mp (by omega)
    have hcount := hcountable number now expansion hlength
    have hready := ready_newTransfer env number now request expansion []
    have hcurrent :=
      current_of_genuine hreach hcount hready (by rw [hlast, hblock]; exact hfew) hfirst
    exact delivers_of_countable hcurrent hstart hcount hready

def smallRequest : TftpRequest := ⟨false, [.blksize 2], ⟨[1, 2, 3, 4, 5], asciiBytes "small"⟩⟩

theorem delivers_smallRequest :
    (∀ s number now expansion,
      Reachable (tftpSystem etherEnv)
        (Permits (newTransfer etherEnv number now smallRequest expansion) fun _ ↦ Current) s →
      .started (newTransfer etherEnv number now smallRequest expansion) ∈ s.log →
      Delivers s (newTransfer etherEnv number now smallRequest expansion)) ∧
    ∀ s number now expansion,
      Reachable (tftpSystem etherEnv)
        (Permits (newTransfer etherEnv number now smallRequest expansion) Genuine) s →
      .started (newTransfer etherEnv number now smallRequest expansion) ∈ s.log →
      Delivers s (newTransfer etherEnv number now smallRequest expansion) := by
  obtain ⟨hprompt, hlate⟩ := delivers_iff etherEnv smallRequest rfl (by decide)
  exact ⟨hprompt.mpr (by decide), hlate.mpr (by decide)⟩

/-- A file of 4 gigabytes, and a client that asks for blocks of one byte. -/
def hugeRequest :
    TftpRequest := ⟨false, [.blksize 1], ⟨List.replicate (2 ^ 32) 0, asciiBytes "huge"⟩⟩

/-- Not every file is delivered, not even to a client that acknowledges each packet once. -/
theorem not_delivers_hugeRequest :
    ∃ s, Reachable (tftpSystem etherEnv)
      (Permits (newTransfer etherEnv 0 0 hugeRequest 0) Prompt) s ∧
      .started (newTransfer etherEnv 0 0 hugeRequest 0) ∈ s.log ∧
      ¬Delivers s (newTransfer etherEnv 0 0 hugeRequest 0) := by
  have hsize : (requestBlocksize etherEnv hugeRequest).toNat = 1 := by decide
  refine exists_not_delivers etherEnv hugeRequest rfl (by omega) ?_
  rw [hsize, hugeRequest, List.length_replicate]
  omega

end CrossBreeder.Dnsmasq
