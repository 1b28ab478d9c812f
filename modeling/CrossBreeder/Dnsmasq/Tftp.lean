import CrossBreeder.Foundation.ByteOrder
import CrossBreeder.Foundation.Transition
import Mathlib.Data.List.Basic

/-!
# The TFTP server

`tftp.c`: requests for files, the packets that `get_block` makes, and `check_tftp_listeners`, which
takes acknowledgements, sends again after a timeout and ends transfers. The state of a transfer is
its block counter and its offset in the file. The counter has 32 bits, of which packets have the
lower 16, and the value 0 stands for the acknowledgement of options.

Each transfer has the number of its request, and so have its events.
-/

namespace CrossBreeder.Dnsmasq

open Foundation

/-! ### Packets -/

def asciiBytes (text : String) : List UInt8 := text.toList.map fun char ↦ UInt8.ofNat char.toNat

/-- `htons`. -/
def shortBytes (value : UInt16) : List UInt8 := [highByte value, lowByte value]

/-- `ntohs` of two bytes of a packet. -/
def shortAt (packet : List UInt8) (i : ℕ) :
    UInt16 := joinBytes (packet.getD i 0) (packet.getD (i + 1) 0)

/-- The operations of packets. -/
def opData : UInt16 := 3
def opAck : UInt16 := 4
def opErr : UInt16 := 5
def opOack : UInt16 := 6

structure TftpFile where
  content : List UInt8
  filename : List UInt8

/-- `struct tftp_transfer`. The number is that of its request, and stands for its socket. -/
structure Transfer where
  number : ℕ
  timeout : ℤ
  backoff : ℕ
  block : UInt32
  blocksize : UInt32
  expansion : UInt32
  offset : ℕ
  optBlocksize : Bool
  optTransize : Bool
  netascii : Bool
  carrylf : Bool
  file : TftpFile

/-- `%u`. -/
def unsignedText (value : UInt32) : List UInt8 := asciiBytes value.toNat.repr

/-- `%d` of an unsigned value. -/
def signedText (value : UInt32) : List UInt8 :=
  if value.toNat < 2 ^ 31 then unsignedText value else asciiBytes "-" ++ unsignedText (0 - value)

/-- The acknowledgement of options. -/
def oackPacket (transfer : Transfer) : List UInt8 :=
  shortBytes opOack ++
    (if transfer.optBlocksize then asciiBytes "blksize" ++ 0 :: signedText transfer.blocksize ++ [0]
      else []) ++
    (if transfer.optTransize then
      asciiBytes "tsize" ++ 0 :: unsignedText (UInt32.ofNat transfer.file.content.length) ++ [0]
    else [])

/-- The loop that maps a newline to two characters: what is in the block, how many characters were
inserted, and whether the newline at the end has been moved to the next block. -/
def netasciiLoop (blocksize : ℕ) (carrylf : Bool) :
    ℕ → ℕ → List UInt8 → UInt32 → Bool → List UInt8 × UInt32 × Bool
  | 0, _, data, expansion, newcarrylf => (data, expansion, newcarrylf)
  | fuel + 1, i, data, expansion, newcarrylf =>
    if data.length ≤ i then (data, expansion, newcarrylf)
    else if data.getD i 0 = 10 ∧ (i ≠ 0 ∨ carrylf = false) then
      -- without room in this block its last character is lost, and is sent again in the next one
      if data.length ≠ blocksize then
        netasciiLoop blocksize carrylf fuel (i + 2) (data.take i ++ 13 :: data.drop i)
          (expansion + 1) newcarrylf
      else
        netasciiLoop blocksize carrylf fuel (i + 2) (data.take i ++ 13 :: (data.drop i).dropLast)
          (expansion + 1) (newcarrylf || i = data.length - 1)
    else netasciiLoop blocksize carrylf fuel (i + 1) data expansion newcarrylf

/-- `get_block`, given whether the file can be read: none for an error, and nothing when the
transfer is done. -/
def getBlock (transfer : Transfer) (readable : Bool) : Transfer × Option (List UInt8) :=
  if transfer.block = 0 then (transfer, some (oackPacket transfer))
  else if transfer.file.content.length < transfer.offset then (transfer, some [])
  else if readable = false then (transfer, none)
  else
    let data := (transfer.file.content.drop transfer.offset).take transfer.blocksize.toNat
    let head := shortBytes opData ++ shortBytes transfer.block.toUInt16
    if transfer.netascii then
      let (data, expansion, carrylf) :=
        netasciiLoop transfer.blocksize.toNat transfer.carrylf (transfer.blocksize.toNat + 1)
          0 data 0 false
      ({ transfer with expansion := expansion, carrylf := carrylf }, some (head ++ data))
    else ({ transfer with expansion := 0 }, some (head ++ data))

/-- `sanitise`: the characters that can be printed. -/
def sanitise (text : List UInt8) : List UInt8 := text.filter fun char ↦ 32 ≤ char ∧ char < 127

/-- What `tftp_err` writes, given what its format makes of the name and of the text of the error:
`snprintf` writes 500 bytes at most. -/
def tftpErrWritten (err : UInt16) (message : List UInt8) : List UInt8 :=
  shortBytes opErr ++ shortBytes err ++ message.take 499 ++ [0]

/-- `tftp_err`: the packet that is sent, given what the buffer had before. -/
def tftpErr (buffer : List UInt8) (err : UInt16) (message : List UInt8) : List UInt8 :=
  let written := tftpErrWritten err message
  (written ++ buffer.drop written.length).take (4 + (message.length + 1))

/-- `tftp_err_oops`, with the text of the error of the system. -/
def tftpErrOops (buffer filename errstr : List UInt8) : List UInt8 :=
  tftpErr buffer 0 (asciiBytes "cannot read " ++ sanitise filename ++ asciiBytes ": " ++ errstr)

/-! ### Requests -/

/-- The options of a request that matter, with what `atoi` makes of the size of blocks. -/
inductive TftpOption
  | blksize (value : ℤ)
  | tsize

structure TftpRequest where
  netascii : Bool
  options : List TftpOption
  file : TftpFile

/-- What `tftp_request` uses of the configuration and of the interface. -/
structure TftpEnv where
  packetBuffSz : UInt32
  mtu : UInt32
  noBlock : Bool

/-- The size of blocks that is used when a client asks for one. -/
def clipBlocksize (env : TftpEnv) (value : ℤ) : UInt32 :=
  let size := UInt32.ofNat (value % 2 ^ 32).toNat
  let size := if size < 1 then 1 else size
  let size := if env.packetBuffSz - 4 < size then env.packetBuffSz - 4 else size
  if env.mtu ≠ 0 ∧ env.mtu - 32 < size then env.mtu - 32 else size

def Transfer.negotiate (env : TftpEnv) (transfer : Transfer) : TftpOption → Transfer
  | .blksize value =>
    if env.noBlock then transfer
    else { transfer with blocksize := clipBlocksize env value, optBlocksize := true, block := 0 }
  | .tsize => if transfer.netascii then transfer
    else { transfer with optTransize := true, block := 0 }

/-- The transfer of a request, with what the memory contains where nothing is written. -/
def newTransfer (env : TftpEnv) (number : ℕ) (now : ℤ) (request : TftpRequest)
    (expansion : UInt32) : Transfer :=
  request.options.foldl (Transfer.negotiate env)
    { number := number, timeout := now + 2, backoff := 1, block := 1, blocksize := 512,
      expansion := expansion
      offset := 0, optBlocksize := false, optTransize := false, netascii :=
        request.netascii, carrylf := false
      file := request.file }

inductive TftpEvent
  | started (transfer : Transfer)
  | sent (number : ℕ) (block : UInt32) (packet : List UInt8)
  | acked (number : ℕ) (block : UInt32)
  | error (number : ℕ) (packet : List UInt8)

/-- The lists of transfers, and the events so far, the last one first, which are not in the source.
-/
structure TftpState where
  trans : List Transfer
  doneTrans : List Transfer
  requests : ℕ
  log : List TftpEvent

/-- `tftp_request` for a file that can be opened. -/
def tftpRequest (env : TftpEnv) (s : TftpState) (now : ℤ) (request : TftpRequest)
    (expansion : UInt32) (readable : Bool) (buffer errstr : List UInt8) : TftpState :=
  let transfer := newTransfer env s.requests now request expansion
  match getBlock transfer readable with
  | (_, none) =>
    { s with
      requests := s.requests + 1
      log := .error transfer.number (tftpErrOops buffer transfer.file.filename errstr) :: s.log }
  | (first, some packet) =>
    { s with
      trans := first :: s.trans
      requests := s.requests + 1
      log := .sent first.number first.block packet :: .started transfer :: s.log }

/-! ### Acknowledgements and timeouts -/

/-- A block is acknowledged, and the next one is due at once. -/
def Transfer.acknowledge (now : ℤ) (transfer : Transfer) : Transfer :=
  { transfer with
    timeout := now
    backoff := 0
    block := transfer.block + 1
    offset :=
      if transfer.block ≠ 0 then transfer.offset + (transfer.blocksize - transfer.expansion).toNat
      else transfer.offset }

/-- A packet from the client, which answers a block. -/
def Transfer.receive (now : ℤ) (transfer : Transfer) (packet : List UInt8) (answered : UInt32) :
    Transfer × List TftpEvent :=
  if packet.length < 4 then (transfer, [])
  else if shortAt packet 0 = opAck ∧ shortAt packet 2 = transfer.block.toUInt16 then
    (transfer.acknowledge now, [.acked transfer.number answered])
  else if shortAt packet 0 = opErr then ({ transfer with timeout := now, backoff := 100 }, [])
  else (transfer, [])

inductive Fate
  | kept | failed | done
  deriving DecidableEq, Repr

/-- The packet is sent again, or the next one is sent. -/
def Transfer.retransmit (transfer : Transfer) (readable : Bool) (buffer errstr : List UInt8) :
    Transfer × Fate × List TftpEvent :=
  let transfer := { transfer with timeout := transfer.timeout + (1 + 2 ^ transfer.backoff) }
  match getBlock transfer readable with
  | (transfer, none) =>
    (transfer, .failed, [.error transfer.number (tftpErrOops buffer transfer.file.filename errstr)])
  | (transfer, some packet) =>
    let transfer := { transfer with backoff := transfer.backoff + 1 }
    if 5 < transfer.backoff ∧ packet ≠ [] then (transfer, .failed, [])
    else if packet = [] then (transfer, .done, [])
    else (transfer, .kept, [.sent transfer.number transfer.block packet])

/-- What a call of `check_tftp_listeners` finds: the time, the packet at a socket if there is one,
whether a file can be read, and if not, what is in the packet buffer and the text of the error. The
block that the client has got when it sends the packet is not in the source: of its number the
packet has the lower 16 bits. -/
structure TftpInput where
  now : ℤ
  packet : ℕ → Option (List UInt8)
  answered : ℕ → UInt32
  readable : ℕ → Bool
  buffer : List UInt8
  errstr : List UInt8

/-- The body of the loop of `check_tftp_listeners`. -/
def Transfer.check (input : TftpInput) (transfer : Transfer) : Transfer × Fate × List TftpEvent :=
  let (transfer, taken) := match input.packet transfer.number with
    | none => (transfer, [])
    | some packet => transfer.receive input.now packet (input.answered transfer.number)
  if transfer.timeout ≤ input.now then
    let (transfer, fate, sent) :=
      transfer.retransmit (input.readable transfer.number) input.buffer input.errstr
    (transfer, fate, sent ++ taken)
  else (transfer, .kept, taken)

/-- The loop of `check_tftp_listeners`: the transfers that are left, those that are done, and what
happened. -/
def checkTransfers (input : TftpInput) :
    List Transfer → List Transfer × List Transfer × List TftpEvent
  | [] => ([], [], [])
  | transfer :: rest =>
    let (transfer, fate, events) := transfer.check input
    let (kept, finished, later) := checkTransfers input rest
    (if fate = .kept then transfer :: kept else kept,
      if fate = .done then finished ++ [transfer] else finished, later ++ events)

def checkTftpListeners (s : TftpState) (input : TftpInput) : TftpState :=
  let (kept, finished, events) := checkTransfers input s.trans
  { s with trans := kept, doneTrans := finished ++ s.doneTrans, log := events ++ s.log }

def doTftpScriptRun (s : TftpState) : TftpState := { s with doneTrans := s.doneTrans.tail }

inductive TftpCall
  | request (now : ℤ) (request : TftpRequest) (expansion : UInt32) (readable : Bool)
    (buffer errstr : List UInt8)
  | check (input : TftpInput)
  | scriptRun

def TftpState.call (env : TftpEnv) (s : TftpState) : TftpCall → TftpState
  | .request now request expansion readable buffer errstr =>
    tftpRequest env s now request expansion readable buffer errstr
  | .check input => checkTftpListeners s input
  | .scriptRun => doTftpScriptRun s

def tftpSystem (env : TftpEnv) : System TftpState TftpCall where
  initial s := s = ⟨[], [], 0, []⟩
  step s call next := next = s.call env call

def TftpReachable (env : TftpEnv) (s : TftpState) :
    Prop := Reachable (tftpSystem env) (fun _ _ ↦ True) s

/-! ### The check of a transfer -/

/-- What `check_tftp_listeners` makes of the packet at the socket of a transfer. -/
def Transfer.taken (input : TftpInput) (transfer : Transfer) : Transfer × List TftpEvent :=
  match input.packet transfer.number with
  | none => (transfer, [])
  | some packet => transfer.receive input.now packet (input.answered transfer.number)

def Transfer.HasAck (input : TftpInput) (transfer : Transfer) (number : UInt16) : Prop :=
  ∃ packet, input.packet transfer.number = some packet ∧ 4 ≤ packet.length ∧
    shortAt packet 0 = opAck ∧ shortAt packet 2 = number

theorem check_eq (input : TftpInput) (transfer : Transfer) : transfer.check input =
    if (transfer.taken input).1.timeout ≤ input.now then
      let result :=
  (transfer.taken input).1.retransmit (input.readable (transfer.taken input).1.number) input.buffer
        input.errstr
      (result.1, result.2.1, result.2.2 ++ (transfer.taken input).2)
    else ((transfer.taken input).1, .kept, (transfer.taken input).2) :=
  rfl

theorem taken_cases (input : TftpInput) (transfer : Transfer) :
    (transfer.HasAck input transfer.block.toUInt16 ∧ transfer.taken input =
      (transfer.acknowledge input.now, [.acked transfer.number (input.answered transfer.number)])) ∨
    ∃ timeout backoff,
      transfer.taken input = ({ transfer with timeout := timeout, backoff := backoff }, []) ∧
        (input.now < timeout → timeout = transfer.timeout ∧ backoff = transfer.backoff) := by
  unfold Transfer.taken
  cases hpacket : input.packet transfer.number with
  | none => exact .inr ⟨transfer.timeout, transfer.backoff, rfl, fun _ ↦ ⟨rfl, rfl⟩⟩
  | some packet =>
    dsimp only [Transfer.receive]
    split_ifs with hshort hack
    · exact .inr ⟨transfer.timeout, transfer.backoff, rfl, fun _ ↦ ⟨rfl, rfl⟩⟩
    · exact .inl ⟨⟨packet, hpacket, Nat.not_lt.mp hshort, hack⟩, rfl⟩
    · exact .inr ⟨input.now, 100, rfl, fun hlater ↦ absurd hlater (Int.lt_irrefl input.now)⟩
    · exact .inr ⟨transfer.timeout, transfer.backoff, rfl, fun _ ↦ ⟨rfl, rfl⟩⟩

/-! ### Numbers -/

def TftpEvent.number : TftpEvent → ℕ
  | .started transfer => transfer.number
  | .sent number _ _ => number
  | .acked number _ => number
  | .error number _ => number

/-- An event of a transfer that is under way. -/
def TftpEvent.Concerns (number : ℕ) : TftpEvent → Prop
  | .started _ => False
  | .sent other _ _ => other = number
  | .acked other _ => other = number
  | .error other _ => other = number

theorem TftpEvent.Concerns.number_eq {number : ℕ} : ∀ {event : TftpEvent}, event.Concerns number →
    event.number = number
  | .sent _ _ _, h => h
  | .acked _ _, h => h
  | .error _ _, h => h

theorem number_getBlock (transfer : Transfer) (readable : Bool) :
    (getBlock transfer readable).1.number = transfer.number := by
  unfold getBlock
  split_ifs <;> rfl

theorem number_retransmit (transfer : Transfer) (readable : Bool) (buffer errstr : List UInt8) :
    (transfer.retransmit readable buffer errstr).1.number = transfer.number ∧
      ∀ event ∈ (transfer.retransmit readable buffer errstr).2.2,
      event.Concerns transfer.number := by
  have hnumber := number_getBlock
    { transfer with timeout := transfer.timeout + (1 + 2 ^ transfer.backoff) } readable
  unfold Transfer.retransmit
  dsimp only at hnumber ⊢
  generalize getBlock _ readable = result at hnumber
  obtain ⟨next, _ | packet⟩ := result
  · exact ⟨hnumber, by simpa [TftpEvent.Concerns] using hnumber⟩
  · dsimp only at hnumber ⊢
    split_ifs
    · exact ⟨hnumber, by simp⟩
    · exact ⟨hnumber, by simp⟩
    · exact ⟨hnumber, by simpa [TftpEvent.Concerns] using hnumber⟩

theorem number_check (input : TftpInput) (transfer : Transfer) :
    (transfer.check input).1.number = transfer.number ∧
      ∀ event ∈ (transfer.check input).2.2, event.Concerns transfer.number := by
  obtain ⟨hnumber, hevents⟩ : (transfer.taken input).1.number = transfer.number ∧
      ∀ event ∈ (transfer.taken input).2, event.Concerns transfer.number := by
    rcases taken_cases input transfer with ⟨-, htaken⟩ | ⟨timeout, backoff, htaken, -⟩
    · rw [htaken]
      exact ⟨rfl, by simp [TftpEvent.Concerns]⟩
    · rw [htaken]
      exact ⟨rfl, by simp⟩
  rw [check_eq]
  generalize transfer.taken input = taken at hnumber hevents
  split_ifs
  · obtain ⟨hsame, hsent⟩ :=
      number_retransmit taken.1 (input.readable taken.1.number) input.buffer input.errstr
    refine ⟨hsame.trans hnumber, fun event hevent ↦ ?_⟩
    rcases List.mem_append.mp hevent with hnew | hold
    · exact hnumber ▸ hsent event hnew
    · exact hevents event hold
  · exact ⟨hnumber, hevents⟩

theorem number_checkTransfers (input : TftpInput) (transfers : List Transfer) :
    (∀ transfer ∈ (checkTransfers input transfers).1, ∃ old ∈ transfers,
      transfer.number = old.number) ∧
    (∀ transfer ∈ (checkTransfers input transfers).2.1, ∃ old ∈ transfers,
      transfer.number = old.number) ∧
    ∀ event ∈ (checkTransfers input transfers).2.2, ∃ old ∈ transfers,
      event.Concerns old.number := by
  induction transfers with
  | nil => simp [checkTransfers]
  | cons first rest ih =>
    obtain ⟨hkept, hfinished, hevents⟩ := ih
    obtain ⟨hnumber, hown⟩ := number_check input first
    have hrest : ∀ {number : ℕ}, (∃ old ∈ rest, number = old.number) →
      ∃ old ∈ first :: rest, number = old.number := by
      rintro number ⟨old, hold, heq⟩
      exact ⟨old, List.mem_cons_of_mem _ hold, heq⟩
    unfold checkTransfers
    dsimp only
    refine ⟨fun transfer hmem ↦ ?_, fun transfer hmem ↦ ?_, fun event hmem ↦ ?_⟩
    · split_ifs at hmem
      · rcases List.mem_cons.mp hmem with rfl | hmem
        · exact ⟨first, List.mem_cons_self, hnumber⟩
        · exact hrest (hkept transfer hmem)
      · exact hrest (hkept transfer hmem)
    · split_ifs at hmem
      · rcases List.mem_append.mp hmem with hmem | hmem
        · exact hrest (hfinished transfer hmem)
        · rw [List.mem_singleton.mp hmem]
          exact ⟨first, List.mem_cons_self, hnumber⟩
      · exact hrest (hfinished transfer hmem)
    · rcases List.mem_append.mp hmem with hmem | hmem
      · obtain ⟨old, hold, hconcerns⟩ := hevents event hmem
        exact ⟨old, List.mem_cons_of_mem _ hold, hconcerns⟩
      · exact ⟨first, List.mem_cons_self, hown event hmem⟩

theorem ne_zero_iff_toNat (n : UInt32) : n ≠ 0 ↔ 0 < n.toNat := by
  rw [Nat.pos_iff_ne_zero, ne_eq, ne_eq, ← UInt32.toNat_inj]
  rfl

/-! ### New transfers -/

structure Fresh (start transfer : Transfer) : Prop where
  number : transfer.number = start.number
  offset : transfer.offset = start.offset
  netascii : transfer.netascii = start.netascii
  file : transfer.file = start.file
  block : transfer.block = start.block ∨ transfer.block = 0

theorem fresh_foldl_negotiate (env : TftpEnv) (options : List TftpOption) (start : Transfer) :
    Fresh start (options.foldl (Transfer.negotiate env) start) := by
  induction options generalizing start with
  | nil => exact ⟨rfl, rfl, rfl, rfl, .inl rfl⟩
  | cons option rest ih =>
    have hone : Fresh start (start.negotiate env option) := by
      cases option with
      | blksize value =>
        dsimp only [Transfer.negotiate]
        split_ifs
        · exact ⟨rfl, rfl, rfl, rfl, .inl rfl⟩
        · exact ⟨rfl, rfl, rfl, rfl, .inr rfl⟩
      | tsize =>
        dsimp only [Transfer.negotiate]
        split_ifs
        · exact ⟨rfl, rfl, rfl, rfl, .inl rfl⟩
        · exact ⟨rfl, rfl, rfl, rfl, .inr rfl⟩
    have hrest := ih (start.negotiate env option)
    refine ⟨hrest.number.trans hone.number, hrest.offset.trans hone.offset,
      hrest.netascii.trans hone.netascii, hrest.file.trans hone.file, ?_⟩
    rcases hrest.block with heq | hzero
    · rcases hone.block with heq' | hzero
      · exact .inl (heq.trans heq')
      · exact .inr (heq.trans hzero)
    · exact .inr hzero

section NewTransfers

variable (env : TftpEnv) (number : ℕ) (now : ℤ) (request : TftpRequest) (expansion : UInt32)

@[simp] theorem newTransfer_number :
    (newTransfer env number now request expansion).number = number :=
  (fresh_foldl_negotiate env request.options _).number

@[simp] theorem newTransfer_offset : (newTransfer env number now request expansion).offset = 0 :=
  (fresh_foldl_negotiate env request.options _).offset

@[simp] theorem newTransfer_netascii :
    (newTransfer env number now request expansion).netascii = request.netascii :=
  (fresh_foldl_negotiate env request.options _).netascii

@[simp] theorem newTransfer_file :
    (newTransfer env number now request expansion).file = request.file :=
  (fresh_foldl_negotiate env request.options _).file

theorem newTransfer_block : (newTransfer env number now request expansion).block = 1 ∨
    (newTransfer env number now request expansion).block = 0 :=
  (fresh_foldl_negotiate env request.options _).block

end NewTransfers

def requestBlocksize (env : TftpEnv) (request : TftpRequest) : UInt32 :=
  (newTransfer env 0 0 request 0).blocksize

theorem blocksize_foldl_negotiate (env : TftpEnv) (options : List TftpOption)
    {first second : Transfer} (hsame : first.blocksize = second.blocksize) :
    (options.foldl (Transfer.negotiate env) first).blocksize =
      (options.foldl (Transfer.negotiate env) second).blocksize := by
  induction options generalizing first second with
  | nil => exact hsame
  | cons option rest ih =>
    refine ih ?_
    cases option with
    | blksize value =>
      dsimp only [Transfer.negotiate]
      split_ifs
      · exact hsame
      · rfl
    | tsize =>
      dsimp only [Transfer.negotiate]
      split_ifs <;> exact hsame

theorem block_foldl_negotiate (env : TftpEnv) (options : List TftpOption) {first second : Transfer}
    (hsame : first.block = second.block) (hmode : first.netascii = second.netascii) :
    (options.foldl (Transfer.negotiate env) first).block =
      (options.foldl (Transfer.negotiate env) second).block := by
  induction options generalizing first second with
  | nil => exact hsame
  | cons option rest ih =>
    refine ih ?_ ?_
    all_goals
      cases option with
      | blksize value =>
        dsimp only [Transfer.negotiate]
        split_ifs <;> trivial
      | tsize =>
        dsimp only [Transfer.negotiate]
        rw [hmode]
        split_ifs <;> trivial

theorem newTransfer_blocksize (env : TftpEnv) (number : ℕ) (now : ℤ) (request : TftpRequest)
    (expansion : UInt32) :
    (newTransfer env number now request expansion).blocksize = requestBlocksize env request :=
  blocksize_foldl_negotiate env request.options rfl

theorem newTransfer_block_eq (env : TftpEnv) (number : ℕ) (now : ℤ) (request : TftpRequest)
    (expansion : UInt32) : (newTransfer env number now request expansion).block =
      (newTransfer env 0 0 request 0).block :=
  block_foldl_negotiate env request.options rfl rfl

def etherEnv : TftpEnv := ⟨4096, 1500, false⟩

end CrossBreeder.Dnsmasq
