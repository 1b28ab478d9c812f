import CrossBreeder.Foundation.RelayBuffer
import CrossBreeder.Rinetd.Configuration
import CrossBreeder.Foundation.Transition

/-!
# Connections of rinetd

The connection slots and the functions that work on them: `handleAccept` with `openLocalFd` and
`refuse`, the handlers for reading, writing and closing, and `selectPass`.

A connection has two ends, the remote peer and the local server. Besides the data of the program a
slot has the history of its connection, and a state has the list of the system calls by which
descriptors are obtained, connected and closed.
-/

namespace CrossBreeder.Rinetd

open Foundation

/-! ### Slots -/

/-- The two ends of a connection, as the source abbreviates them: remote and local. -/
inductive Side
  | re
  | lo
  deriving DecidableEq, Repr

def Side.other : Side → Side
  | .re => .lo
  | .lo => .re

@[simp] theorem Side.other_other (side : Side) : side.other.other = side := by cases side <;> rfl

@[simp] theorem Side.other_ne (side : Side) : side.other ≠ side := by cases side <;> decide

@[simp] theorem Side.ne_other (side : Side) : side ≠ side.other := by cases side <;> decide

/-- What happens on a connection: data is received from an end or sent to it, an end reaches end of
file or fails, the descriptor of an end is closed. -/
inductive Event
  | received (side : Side) (data : List UInt8)
  | sent (side : Side) (data : List UInt8)
  | ended (side : Side)
  | closed (side : Side)
  deriving DecidableEq, Repr

def bufferSpace : ℕ := 1024

/-- A slot: `reFds` and `loFds`, `reClosed` and `loClosed`, the buffer of the data that comes from
each end (`coInput` and `coOutput` with their positions), `coClosed` and `coClosing`. The last two
fields are history: whether the slot has been given to a connection, and what has happened on the
latest one. -/
structure Slot where
  fd : Side → ℤ
  closed : Side → Bool
  buffer : Side → RelayBuffer UInt8
  coClosed : Bool
  coClosing : Bool
  used : Bool
  events : List Event

def invalidSocket : ℤ := -1

inductive Call
  | accept (fd : ℤ)
  | socket (fd : ℤ)
  | connect (fd : ℤ) (address : UInt32) (port : ℕ)
  | close (fd : ℤ)
  deriving DecidableEq, Repr

structure Work where
  slot : Slot
  nextFd : ℕ
  calls : List Call

structure State where
  slots : List Slot
  nextFd : ℕ
  calls : List Call

/-- A function on the slot with a given index. -/
def State.onSlot (state : State) (index : ℕ) (update : Work → Work) : State :=
  match state.slots[index]? with
  | none => state
  | some slot =>
    let work := update ⟨slot, state.nextFd, state.calls⟩
    ⟨state.slots.set index work.slot, work.nextFd, work.calls⟩

/-- `closesocket` on the descriptor of an end. -/
def Work.closesocket (work : Work) (side : Side) : Work :=
  { work with
    slot := { work.slot with events := work.slot.events ++ [.closed side] }
    calls := work.calls ++ [.close (work.slot.fd side)] }

def Work.markClosed (work : Work) : Work :=
  { work with slot := { work.slot with closed := fun _ ↦ true, coClosed := true } }

/-! ### Relaying -/

/-- The result of `recv`: data, where no data is the end of the file, `WSAEWOULDBLOCK` or
`WSAEINPROGRESS`, or another error. -/
inductive RecvResult
  | data (bytes : List UInt8)
  | again
  | failed
  deriving DecidableEq, Repr

/-- The result of `send`. -/
inductive SendResult
  | count (bytes : ℕ)
  | again
  | failed
  deriving DecidableEq, Repr

/-- `handleCloseFromLocal` and `handleCloseFromRemote`: the end has fizzled out. -/
def handleCloseFrom (side : Side) (work : Work) : Work :=
  let ended : Work := { work with
    slot := { work.slot with coClosing := true, events := work.slot.events ++ [.ended side] } }
  let work := ended.closesocket side
  { work with slot := { work.slot with closed := Function.update work.slot.closed side true } }

/-- `handleRemoteRead` and `handleLocalRead`. The system returns no more data than it is asked for.
-/
def handleRead (side : Side) (result : RecvResult) (work : Work) : Work :=
  let buffer := work.slot.buffer side
  if bufferSpace = buffer.rpos then work
  else
    match result with
    | .data bytes =>
      let bytes := bytes.take (bufferSpace - buffer.rpos)
      if bytes = [] then handleCloseFrom side work
      else
        { work with
          slot := { work.slot with
            buffer := Function.update work.slot.buffer side (buffer.fill bytes)
            events := work.slot.events ++ [.received side bytes] } }
    | .again => work
    | .failed => handleCloseFrom side work

/-- `handleRemoteWrite` and `handleLocalWrite`: what has come from the other end is sent, and when
the connection is closing and everything has been sent, this end is closed. -/
def handleWrite (side : Side) (result : SendResult) (work : Work) : Work :=
  let buffer := work.slot.buffer side.other
  if work.slot.coClosing ∧ buffer.wpos = buffer.rpos then
    let closed := { work.slot with
      closed := Function.update work.slot.closed side true
      coClosed := true }
    { work with slot := closed }.closesocket side
  else
    match result with
    | .count bytes =>
      let count := min bytes (buffer.rpos - buffer.wpos)
      { work with
        slot := { work.slot with
          buffer := Function.update work.slot.buffer side.other (buffer.drain count)
          events := work.slot.events ++ [.sent side (buffer.pending.take count)] } }
    | .again => work
    | .failed => handleCloseFrom side work

def handleRemoteRead : RecvResult → Work → Work := handleRead .re

def handleRemoteWrite : SendResult → Work → Work := handleWrite .re

def handleLocalRead : RecvResult → Work → Work := handleRead .lo

def handleLocalWrite : SendResult → Work → Work := handleWrite .lo

/-! ### New connections -/

def refuse (work : Work) : Work := (work.closesocket .re).markClosed

/-- What the system answers to `handleAccept`. -/
structure AcceptInput where
  peer : Option (UInt8 × UInt8 × UInt8 × UInt8)
  behind : List UInt8
  memory : Bool
  newSlots : ℕ → Slot
  socket : Bool
  bind : Bool
  connect : Bool

def openLocalFd (server : Server) (input : AcceptInput) (work : Work) : Work :=
  if !input.socket then
    let work : Work := { work with
      slot := { work.slot with fd := Function.update work.slot.fd .lo invalidSocket }
      calls := work.calls ++ [.socket invalidSocket] }
    (work.closesocket .re).markClosed
  else
    let work : Work := {
      slot := { work.slot with fd := Function.update work.slot.fd .lo work.nextFd }
      nextFd := work.nextFd + 1
      calls := work.calls ++ [.socket work.nextFd] }
    if !input.bind then ((work.closesocket .lo).closesocket .re).markClosed
    else
      let work := { work with
        calls := work.calls ++ [.connect (work.slot.fd .lo) server.localAddr server.toPort] }
      if !input.connect then ((work.closesocket .lo).closesocket .re).markClosed
      else work

/-- The array `addressText` with what is behind the text in memory. -/
def addressText (address : UInt8 × UInt8 × UInt8 × UInt8) (behind : List UInt8) : List UInt8 :=
  decimal address.1 ++ [46] ++ decimal address.2.1 ++ [46] ++ decimal address.2.2.1 ++ [46] ++
    decimal address.2.2.2 ++ 0 :: behind

/-- The search for a rule that matches, from an offset in the array of rules. -/
def anyMatch (text : List UInt8) (rules : List (List UInt8)) (offset total : ℕ) : Bool :=
  (List.range total).any fun j ↦ matches? text (rules.getD (offset + j) [])

/-- A check of allow rules: it is passed when there are none or one of them matches. -/
def allowed (text : List UInt8) (rules : List (List UInt8)) (offset total : ℕ) : Bool :=
  total = 0 ∨ anyMatch text rules offset total

/-- A check of deny rules: the connection is refused for each one that matches, and the loop goes
on. -/
def denyLoop (text : List UInt8) (rules : List (List UInt8)) (offset total : ℕ) (work : Work) :
    Work :=
  (List.range total).foldl
    (fun work j ↦ if matches? text (rules.getD (offset + j) []) then refuse work else work) work

/-- The slot is set up for the descriptor of a new peer. The descriptor of the local end stays what
it was. -/
def Work.setUp (work : Work) (fd : ℤ) : Work :=
  { work with
    slot := {
      fd := Function.update work.slot.fd .re fd
      closed := fun _ ↦ false
      buffer := fun side ↦ (work.slot.buffer side).rewind
      coClosed := false
      coClosing := false
      used := true
      events := [] } }

/-- The part of `handleAccept` that works on the slot of the new connection: the four lists of rules
are checked and the local server is connected. -/
def placeConnection (settings : Settings) (i : ℕ) (input : AcceptInput)
    (address : UInt8 × UInt8 × UInt8 × UInt8) (fd : ℤ) (work : Work) : Work :=
  let allow := settings.allowRules
  let deny := settings.denyRules
  let allowWindow := allow.windows.getD i ⟨0, 0⟩
  let denyWindow := deny.windows.getD i ⟨0, 0⟩
  let text := addressText address input.behind
  let accepted := work.setUp fd
  if !allowed text allow.items 0 allow.leading then refuse accepted
  else
    let checked := denyLoop text deny.items 0 deny.leading accepted
    if !allowed text allow.items allowWindow.offset allowWindow.total then refuse checked
    else
      openLocalFd (settings.servers.getD i default) input
        (denyLoop text deny.items denyWindow.offset denyWindow.total checked)

/-- The slots after their number has been doubled. -/
def enlarge (input : AcceptInput) (slots : List Slot) : List Slot :=
  slots ++ (List.range slots.length).map fun k ↦
    { input.newSlots k with coClosed := true, used := false, events := [] }

/-- `handleAccept` on the server socket of a forwarding rule. -/
def handleAccept (settings : Settings) (i : ℕ) (input : AcceptInput) (state : State) : State :=
  match input.peer with
  | none => state
  | some address =>
    let fd : ℤ := state.nextFd
    let state : State := { state with
      nextFd := state.nextFd + 1
      calls := state.calls ++ [.accept fd] }
    match state.slots.findIdx? (·.coClosed) with
    | some index => state.onSlot index (placeConnection settings i input address fd)
    | none =>
      if !input.memory then state
      else
        { state with slots := enlarge input state.slots }.onSlot state.slots.length
          (placeConnection settings i input address fd)

/-! ### A pass -/

/-- What the system answers in a pass. -/
structure PassInput where
  acceptable : ℕ → Bool
  accepts : ℕ → AcceptInput
  readable : ℤ → Bool
  writable : ℤ → Bool
  recv : Side → ℕ → RecvResult
  send : Side → ℕ → SendResult

/-- The descriptors that the pass adds to `readfds` for a slot. -/
def wantsRead (slot : Slot) (fd : ℤ) : Bool :=
  !slot.coClosed && [Side.re, Side.lo].any fun side ↦
    slot.fd side = fd ∧ !slot.closed side ∧ (slot.buffer side).rpos < bufferSpace

/-- The descriptors that the pass adds to `writefds` for a slot. -/
def wantsWrite (slot : Slot) (fd : ℤ) : Bool :=
  !slot.coClosed && [Side.re, Side.lo].any fun side ↦
    slot.fd side = fd ∧ !slot.closed side ∧
      (slot.coClosing ∨ (slot.buffer side.other).wpos < (slot.buffer side.other).rpos)

/-- The body of the loop over the slots, for the sets of descriptors that `select` leaves. -/
def serveSlot (readfds writefds : ℤ → Bool) (recv : Side → RecvResult) (send : Side → SendResult)
    (work : Work) : Work :=
  if work.slot.coClosed then work
  else
    let work := if !work.slot.closed .re && readfds (work.slot.fd .re)
      then handleRemoteRead (recv .re) work else work
    let work := if !work.slot.closed .re && writefds (work.slot.fd .re)
      then handleRemoteWrite (send .re) work else work
    let work := if !work.slot.closed .lo && readfds (work.slot.fd .lo)
      then handleLocalRead (recv .lo) work else work
    let work := if !work.slot.closed .lo && writefds (work.slot.fd .lo)
      then handleLocalWrite (send .lo) work else work
    if work.slot.closed .lo && work.slot.closed .re then
      { work with slot := { work.slot with coClosed := true } }
    else work

def selectPass (settings : Settings) (input : PassInput) (state : State) : State :=
  let readfds := fun fd ↦ state.slots.any (wantsRead · fd) && input.readable fd
  let writefds := fun fd ↦ state.slots.any (wantsWrite · fd) && input.writable fd
  let state := (List.range settings.servers.length).foldl
    (fun state i ↦ if input.acceptable i then handleAccept settings i (input.accepts i) state
      else state) state
  (List.range state.slots.length).foldl
    (fun state k ↦ state.onSlot k
      (serveSlot readfds writefds (input.recv · k) (input.send · k))) state

/-- The state after `initArrays`: 64 closed slots whose other contents are whatever the memory
holds. -/
structure Initial (state : State) : Prop where
  slots_length : state.slots.length = 64
  unused : ∀ slot ∈ state.slots, slot.coClosed = true ∧ slot.used = false ∧ slot.events = []
  nextFd : state.nextFd = 0
  calls : state.calls = []

/-- The runs of `selectLoop` with a configuration. -/
def selectLoop (settings : Settings) : System State PassInput where
  initial := Initial
  step state input next := next = selectPass settings input state

def closedSlot :
    Slot := ⟨fun _ ↦ 0, fun _ ↦ true, fun _ ↦ ⟨fun _ ↦ 0, 0, 0⟩, true, false, false, []⟩

def firstState : State := ⟨List.replicate 64 closedSlot, 0, []⟩

theorem initial_firstState : Initial firstState where
  slots_length := List.length_replicate
  unused := by
    intro slot hslot
    rw [List.eq_of_mem_replicate hslot]
    exact ⟨rfl, rfl, rfl⟩
  nextFd := rfl
  calls := rfl

variable {state : State}

variable {settings : Settings}

variable {condition : State → PassInput → Prop}

theorem reachable_foldl_selectPass
    (hreach : Reachable (selectLoop settings) condition state)
    (inputs : List PassInput) (hinputs : ∀ input ∈ inputs, ∀ state, condition state input) :
    Reachable (selectLoop settings) condition
      (inputs.foldl (fun state input ↦ selectPass settings input state) state) := by
  induction inputs generalizing state with
  | nil => exact hreach
  | cons input inputs ih =>
    refine ih (hreach.step (hinputs input List.mem_cons_self state) rfl) fun other hother ↦ ?_
    exact hinputs other (List.mem_cons_of_mem _ hother)

/-- A connection from an address, where every call of the system succeeds. -/
def connectionFrom (address : UInt8 × UInt8 × UInt8 × UInt8) : AcceptInput where
  peer := some address
  behind := []
  memory := true
  newSlots _ := closedSlot
  socket := true
  bind := true
  connect := true

/-! ### What handleAccept can do -/

def SlotAvailable (input : AcceptInput) (state : State) : Prop :=
  (∃ slot ∈ state.slots, slot.coClosed = true) ∨ input.memory = true

theorem State.onSlot_of_getElem? {index : ℕ} {slot : Slot}
    (h : state.slots[index]? = some slot) (update : Work → Work) :
    state.onSlot index update =
      ⟨state.slots.set index (update ⟨slot, state.nextFd, state.calls⟩).slot,
        (update ⟨slot, state.nextFd, state.calls⟩).nextFd,
        (update ⟨slot, state.nextFd, state.calls⟩).calls⟩ := by
  unfold State.onSlot
  rw [h]

/-- For an accepted connection `handleAccept` works on a closed slot, which may be new, or it leaves
the descriptor of the connection alone when there is no memory for a slot. -/
theorem handleAccept_cases (settings : Settings) (i : ℕ) {input : AcceptInput}
    (hslots : state.slots ≠ []) {address : UInt8 × UInt8 × UInt8 × UInt8}
    (hpeer : input.peer = some address) :
    (SlotAvailable input state ∧ ∃ slots index slot,
        (slots = state.slots ∨ slots = enlarge input state.slots) ∧ slots[index]? = some slot ∧
        slot.coClosed = true ∧
        handleAccept settings i input state =
          State.onSlot ⟨slots, state.nextFd + 1, state.calls ++ [.accept state.nextFd]⟩ index
            (placeConnection settings i input address state.nextFd)) ∨
      (¬ SlotAvailable input state ∧
        handleAccept settings i input state =
          ⟨state.slots, state.nextFd + 1, state.calls ++ [.accept state.nextFd]⟩) := by
  unfold handleAccept
  simp only [hpeer]
  rcases hfind : state.slots.findIdx? (·.coClosed) with _ | index
  · have hfull : ¬ ∃ slot ∈ state.slots, slot.coClosed = true := by
      rintro ⟨slot, hslot, hclosed⟩
      have hopen := List.findIdx?_eq_none_iff.mp hfind slot hslot
      simp [hclosed] at hopen
    by_cases hmemory : input.memory = true
    · refine Or.inl ⟨Or.inr hmemory, enlarge input state.slots, state.slots.length,
        { input.newSlots 0 with coClosed := true, used := false, events := [] },
        Or.inr rfl, ?_, rfl, ?_⟩
      · have hpos := List.length_pos_iff.mpr hslots
        rw [enlarge, List.getElem?_append_right (Nat.le_refl _), Nat.sub_self, List.getElem?_map,
          List.getElem?_range hpos]
        rfl
      · simp [hfind, hmemory]
    · exact Or.inr ⟨not_or.mpr ⟨hfull, hmemory⟩, by simp [hfind, hmemory]⟩
  · obtain ⟨hindex, hclosed, -⟩ := List.findIdx?_eq_some_iff_getElem.mp hfind
    exact Or.inl ⟨Or.inl ⟨_, List.getElem_mem hindex, hclosed⟩, state.slots, index, _, Or.inl rfl,
      List.getElem?_eq_getElem hindex, hclosed, by rw [hfind]⟩

/-! ### What holds for every slot -/

section Slots

variable {P : Slot → Prop}

theorem forall_slots_onSlot (hslots : ∀ slot ∈ state.slots, P slot) (index : ℕ)
    {update : Work → Work} (hupdate : ∀ work, P work.slot → P (update work).slot) :
    ∀ slot ∈ (state.onSlot index update).slots, P slot := by
  intro slot hslot
  unfold State.onSlot at hslot
  rcases hindex : state.slots[index]? with _ | old
  · rw [hindex] at hslot
    exact hslots slot hslot
  · rw [hindex] at hslot
    rcases List.mem_or_eq_of_mem_set hslot with hslot | rfl
    · exact hslots slot hslot
    · exact hupdate _ (hslots old (List.mem_of_getElem? hindex))

theorem forall_slots_handleAccept
    (hslots : ∀ slot ∈ state.slots, P slot)
    (hunused : ∀ slot, slot.coClosed = true → slot.used = false → slot.events = [] → P slot)
    (hplace : ∀ i input address fd work, P work.slot →
      P (placeConnection settings i input address fd work).slot)
    (i : ℕ) (input : AcceptInput) :
    ∀ slot ∈ (handleAccept settings i input state).slots, P slot := by
  unfold handleAccept
  rcases input.peer with _ | address
  · exact hslots
  · dsimp only
    split
    · refine forall_slots_onSlot ?_ _ (hplace i input address _)
      exact hslots
    · split_ifs
      · exact hslots
      · refine forall_slots_onSlot (fun slot hslot ↦ ?_) _ (hplace i input address _)
        rcases List.mem_append.mp hslot with hslot | hslot
        · exact hslots slot hslot
        · obtain ⟨k, -, rfl⟩ := List.mem_map.mp hslot
          exact hunused _ rfl rfl rfl

/-- The rule for properties of slots: what holds for unused slots and is kept by `placeConnection`
and by the body of the loop over the slots holds for every slot in every run. -/
theorem forall_slots_of_reachable
    (hreach : Reachable (selectLoop settings) condition state)
    (hunused : ∀ slot, slot.coClosed = true → slot.used = false → slot.events = [] → P slot)
    (hplace : ∀ i input address fd work, P work.slot →
      P (placeConnection settings i input address fd work).slot)
    (hserve : ∀ readfds writefds recv send work, P work.slot →
      P (serveSlot readfds writefds recv send work).slot) :
    ∀ slot ∈ state.slots, P slot := by
  refine hreach.invariant (fun state ↦ ∀ slot ∈ state.slots, P slot) ?_ ?_
  · intro state hinitial slot hslot
    obtain ⟨hclosed, hused, hevents⟩ := hinitial.unused slot hslot
    exact hunused slot hclosed hused hevents
  · rintro state input next - hslots - rfl
    unfold selectPass
    extract_lets readfds writefds accepted
    have haccepted : ∀ slot ∈ accepted.slots, P slot := by
      refine List.foldlRecOn (motive := fun state : State ↦ ∀ slot ∈ state.slots, P slot)
        (List.range settings.servers.length) _ hslots ?_
      intro state hslots i _
      split_ifs
      · exact forall_slots_handleAccept hslots hunused hplace i _
      · exact hslots
    refine List.foldlRecOn (motive := fun state : State ↦ ∀ slot ∈ state.slots, P slot)
      (List.range accepted.slots.length) _ haccepted ?_
    intro state hslots k _
    exact forall_slots_onSlot hslots k (hserve _ _ _ _)

end Slots

/-! ### What holds while a slot is served -/

/-- The rule for the body of the loop over the slots: what the handlers of open ends keep holds when
the last of them has returned, and then the slot is marked as closed if both ends are. -/
theorem serveSlot_cases {P : Work → Prop}
    (hread : ∀ side result work, P work → work.slot.closed side = false →
      P (handleRead side result work))
    (hwrite : ∀ side result work, P work → work.slot.closed side = false →
      P (handleWrite side result work))
    (readfds writefds : ℤ → Bool) (recv : Side → RecvResult) (send : Side → SendResult)
    (work : Work) (hopen : work.slot.coClosed = false) (h : P work) :
    ∃ last, P last ∧ serveSlot readfds writefds recv send work =
      if last.slot.closed .lo && last.slot.closed .re then
        { last with slot := { last.slot with coClosed := true } }
      else last := by
  unfold serveSlot
  rw [if_neg (by simp [hopen])]
  extract_lets afterRemoteRead afterRemoteWrite afterLocalRead afterLocalWrite
  refine ⟨afterLocalWrite, ?_, rfl⟩
  have hopen' {side : Side} {work : Work} {ready : Bool}
      (h : (!work.slot.closed side && ready) = true) : work.slot.closed side = false := by
    simpa using (Bool.and_eq_true_iff.mp h).1
  have hremoteRead : P afterRemoteRead := by
    unfold afterRemoteRead
    split_ifs with hside
    · exact hread .re _ work h (hopen' hside)
    · exact h
  have hremoteWrite : P afterRemoteWrite := by
    unfold afterRemoteWrite
    split_ifs with hside
    · exact hwrite .re _ afterRemoteRead hremoteRead (hopen' hside)
    · exact hremoteRead
  have hlocalRead : P afterLocalRead := by
    unfold afterLocalRead
    split_ifs with hside
    · exact hread .lo _ afterRemoteWrite hremoteWrite (hopen' hside)
    · exact hremoteWrite
  unfold afterLocalWrite
  split_ifs with hside
  · exact hwrite .lo _ afterLocalRead hlocalRead (hopen' hside)
  · exact hlocalRead

end CrossBreeder.Rinetd
