import CrossBreeder.Rinetd.Connections

/-!
# Relaying of data in rinetd

In every run of `selectLoop`, whatever is ready and however much the system receives and sends at a
time, the data sent to one end of a connection is what was received from the other, in order and
without loss: what has been sent and what is pending in the buffer make up what has been received
(`relayIntegrity_of_reachable`). An end that does not fail or reach its end of file is closed only
when everything that the other end ever sends has been sent to it.

The two buffers share the flag `coClosing`. The invariant that separates them is that a connection
is closing only when one of its ends is closed: an end that is still open then sees that nothing
more can come from the other one.
-/

namespace CrossBreeder.Rinetd

open Foundation

/-! ### Streams of a connection -/

def Event.dataFrom (side : Side) : Event → List UInt8
  | .received source data => if source = side then data else []
  | _ => []

def Event.dataTo (side : Side) : Event → List UInt8
  | .sent target data => if target = side then data else []
  | _ => []

def receivedFrom (side : Side) (events : List Event) :
    List UInt8 := events.flatMap (·.dataFrom side)

def sentTo (side : Side) (events : List Event) : List UInt8 := events.flatMap (·.dataTo side)

@[simp] theorem receivedFrom_concat (side : Side) (events : List Event) (event : Event) :
    receivedFrom side (events ++ [event]) = receivedFrom side events ++ event.dataFrom side := by
  simp [receivedFrom]

@[simp] theorem sentTo_concat (side : Side) (events : List Event) (event : Event) :
    sentTo side (events ++ [event]) = sentTo side events ++ event.dataTo side := by
  simp [sentTo]

/-- What the connection of a slot guarantees: the positions are in order, what is sent to an end and
what is pending for it make up what was received from the other end, what has been sent was at all
times a prefix of what had been received, and an end that has not failed and has not reached its end
of file is closed only after everything received from the other end has been sent to it. -/
structure RelayIntegrity (slot : Slot) : Prop where
  positions : ∀ side, (slot.buffer side).wpos ≤ (slot.buffer side).rpos ∧
    (slot.buffer side).rpos ≤ bufferSpace
  lossless : ∀ side, sentTo side.other slot.events ++ (slot.buffer side).pending =
    receivedFrom side slot.events
  inOrder : ∀ side front, front <+: slot.events →
    sentTo side.other front <+: receivedFrom side front
  drained : ∀ side front back, slot.events = front ++ .closed side :: back → .ended side ∉ front →
    sentTo side front = receivedFrom side.other slot.events

/-! ### The invariant of a slot -/

/-- The descriptor of an end was closed after the end had failed, or when everything had been sent
to it and the other end was closed too. -/
def ClosedDrained (slot : Slot) (side : Side) (front : List Event) : Prop :=
  .ended side ∈ front ∨
    (slot.closed side.other = true ∧ sentTo side front = receivedFrom side.other slot.events)

structure Intact (slot : Slot) : Prop where
  within : ∀ side, (slot.buffer side).Within bufferSpace
  lossless : ∀ side, sentTo side.other slot.events ++ (slot.buffer side).pending =
    receivedFrom side slot.events
  inOrder : ∀ side front, front <+: slot.events →
    sentTo side.other front <+: receivedFrom side front
  drained : ∀ side front back, slot.events = front ++ .closed side :: back →
    ClosedDrained slot side front
  closing : slot.coClosing = true → slot.closed .re = true ∨ slot.closed .lo = true

theorem Intact.relayIntegrity {slot : Slot} (h : Intact slot) : RelayIntegrity slot where
  positions := h.within
  lossless := h.lossless
  inOrder := h.inOrder
  drained side front back hevents hended :=
    ((h.drained side front back hevents).resolve_left hended).2

theorem Intact.closed_other {slot : Slot} (h : Intact slot) (hclosing : slot.coClosing = true)
    {side : Side} (hopen : slot.closed side = false) : slot.closed side.other = true := by
  rcases side with _ | _
  · exact (h.closing hclosing).resolve_left (by simp [hopen])
  · exact (h.closing hclosing).resolve_right (by simp [hopen])

/-- One more event: it is enough to look at the new streams, and at the new event if it closes an
end. Data is received only from an end that is not closed. -/
theorem Intact.extend {old new : Slot} (hold : Intact old) (event : Event)
    (hevents : new.events = old.events ++ [event])
    (hwithin : ∀ side, (new.buffer side).Within bufferSpace)
    (hlossless : ∀ side, sentTo side.other new.events ++ (new.buffer side).pending =
      receivedFrom side new.events)
    (hclosed : ∀ side, old.closed side = true → new.closed side = true)
    (hreceived : ∀ side data, event = .received side data → old.closed side = false)
    (hclosing : new.coClosing = true → new.closed .re = true ∨ new.closed .lo = true)
    (hnew : ∀ side, event = .closed side → ClosedDrained new side old.events) :
    Intact new := by
  refine ⟨hwithin, hlossless, fun side front hfront ↦ ?_, fun side front back hsplit ↦ ?_, hclosing⟩
  · rw [hevents, List.prefix_concat_iff] at hfront
    rcases hfront with rfl | hfront
    · rw [← hevents, ← hlossless side]
      exact List.prefix_append _ _
    · exact hold.inOrder side front hfront
  · rw [hevents] at hsplit
    rcases List.eq_nil_or_concat' back with rfl | ⟨back, last, rfl⟩
    · obtain ⟨rfl, hevent⟩ := List.append_inj' hsplit rfl
      exact hnew side (List.singleton_inj.mp hevent)
    · have hsplit' : old.events ++ [event] = (front ++ .closed side :: back) ++ [last] := by
        rw [hsplit]
        simp
      obtain ⟨hback, -⟩ := List.append_inj' hsplit' rfl
      refine (hold.drained side front back hback).imp_right fun ⟨hother, hsent⟩ ↦ ?_
      have hsame : event.dataFrom side.other = [] := by
        rcases event with ⟨source, data⟩ | _ | _ | _
        · have hopen := hreceived source data rfl
          refine if_neg fun hside ↦ ?_
          rw [hside, hother] at hopen
          exact Bool.noConfusion hopen
        · rfl
        · rfl
        · rfl
      refine ⟨hclosed _ hother, ?_⟩
      rw [hevents, receivedFrom_concat, hsame, List.append_nil]
      exact hsent

/-! ### The handlers -/

theorem Intact.extend_quiet {old new : Slot} (hold : Intact old) (event : Event)
    (hevents : new.events = old.events ++ [event])
    (hfrom : ∀ side, event.dataFrom side = []) (hto : ∀ side, event.dataTo side = [])
    (hbuffer : new.buffer = old.buffer)
    (hclosed : ∀ side, old.closed side = true → new.closed side = true)
    (hclosing : new.coClosing = true → new.closed .re = true ∨ new.closed .lo = true)
    (hreceived : ∀ side data, event ≠ .received side data)
    (hnew : ∀ side, event = .closed side → ClosedDrained new side old.events) : Intact new := by
  refine hold.extend event hevents ?_ ?_ hclosed ?_ hclosing hnew
  · rw [hbuffer]
    exact hold.within
  · intro side
    rw [hevents, hbuffer, sentTo_concat, receivedFrom_concat, hfrom, hto, List.append_nil,
      List.append_nil]
    exact hold.lossless side
  · intro side data hevent
    exact absurd hevent (hreceived side data)

theorem update_closed (closed : Side → Bool) (side other : Side) (h : closed other = true) :
    Function.update closed side true other = true := by
  by_cases hside : other = side
  · rw [hside, Function.update_self]
  · rw [Function.update_of_ne hside, h]

theorem closed_of_update (closed : Side → Bool) (side : Side) :
    Function.update closed side true .re = true ∨ Function.update closed side true .lo = true := by
  rcases side with _ | _
  · exact Or.inl (Function.update_self _ _ _)
  · exact Or.inr (Function.update_self _ _ _)

theorem intact_handleCloseFrom {work : Work} (h : Intact work.slot) (side : Side) :
    Intact (handleCloseFrom side work).slot := by
  have hended : Intact { work.slot with
      closed := Function.update work.slot.closed side true
      coClosing := true
      events := work.slot.events ++ [.ended side] } := by
    refine h.extend_quiet (.ended side) rfl (fun _ ↦ rfl) (fun _ ↦ rfl) rfl
      (update_closed work.slot.closed side) (fun _ ↦ closed_of_update _ _) ?_ ?_
    · exact fun _ _ hevent ↦ Event.noConfusion hevent
    · exact fun _ hevent ↦ Event.noConfusion hevent
  refine hended.extend_quiet (.closed side) rfl (fun _ ↦ rfl) (fun _ ↦ rfl) rfl
    (fun _ hclosed ↦ hclosed) (fun _ ↦ closed_of_update _ _) ?_ ?_
  · exact fun _ _ hevent ↦ Event.noConfusion hevent
  · intro other hevent
    obtain rfl := Event.closed.inj hevent
    exact Or.inl (by simp)

theorem intact_handleRead {work : Work} (h : Intact work.slot) {side : Side}
    (hopen : work.slot.closed side = false) (result : RecvResult) :
    Intact (handleRead side result work).slot := by
  unfold handleRead
  extract_lets buffer
  split_ifs with hfull
  · exact h
  rcases result with bytes | _ | _
  · dsimp only
    have hlength : (bytes.take (bufferSpace - buffer.rpos)).length ≤ bufferSpace - buffer.rpos :=
      List.length_take_le _ _
    generalize bytes.take (bufferSpace - buffer.rpos) = data at hlength
    split_ifs with hnone
    · exact intact_handleCloseFrom h side
    refine h.extend (.received side data) rfl ?_ ?_ (fun _ hclosed ↦ hclosed) ?_ h.closing ?_
    · intro other
      by_cases hside : other = side
      · subst hside
        simp only [Function.update_self]
        exact (h.within other).fill hlength
      · simp only [Function.update_of_ne hside]
        exact h.within other
    · intro other
      simp only [sentTo_concat, receivedFrom_concat]
      by_cases hside : other = side
      · subst hside
        simp only [Function.update_self, Event.dataFrom, Event.dataTo, if_true, List.append_nil]
        rw [RelayBuffer.pending_fill _ _ (h.within other).1, ← List.append_assoc, h.lossless other]
      · simp only [Function.update_of_ne hside, Event.dataFrom, Event.dataTo,
          if_neg (Ne.symm hside), List.append_nil]
        exact h.lossless other
    · intro other bytes hevent
      obtain ⟨rfl, -⟩ := Event.received.inj hevent
      exact hopen
    · exact fun _ hevent ↦ Event.noConfusion hevent
  · exact h
  · exact intact_handleCloseFrom h side

theorem intact_handleWrite {work : Work} (h : Intact work.slot) {side : Side}
    (hopen : work.slot.closed side = false) (result : SendResult) :
    Intact (handleWrite side result work).slot := by
  unfold handleWrite
  extract_lets buffer closed
  split_ifs with hdone
  · -- the connection is closing, so the other end is closed and nothing more can come from it
    obtain ⟨hclosing, hempty⟩ := hdone
    have hother := h.closed_other hclosing hopen
    have hsent : sentTo side work.slot.events = receivedFrom side.other work.slot.events := by
      have hlossless := h.lossless side.other
      rw [RelayBuffer.pending_eq_nil hempty, List.append_nil, Side.other_other] at hlossless
      exact hlossless
    refine h.extend_quiet (.closed side) rfl (fun _ ↦ rfl) (fun _ ↦ rfl) rfl
      (update_closed work.slot.closed side) (fun _ ↦ closed_of_update _ _) ?_ ?_
    · exact fun _ _ hevent ↦ Event.noConfusion hevent
    · intro other hevent
      obtain rfl := Event.closed.inj hevent
      refine Or.inr ⟨update_closed _ _ _ hother, ?_⟩
      show _ = receivedFrom side.other (work.slot.events ++ [.closed side])
      rw [receivedFrom_concat, hsent]
      exact (List.append_nil _).symm
  rcases result with bytes | _ | _
  · dsimp only
    have hcount : min bytes (buffer.rpos - buffer.wpos) ≤ buffer.rpos - buffer.wpos :=
      Nat.min_le_right _ _
    generalize min bytes (buffer.rpos - buffer.wpos) = count at hcount
    refine h.extend (.sent side (buffer.pending.take count)) rfl ?_ ?_
      (fun _ hclosed ↦ hclosed) ?_ h.closing ?_
    · intro other
      by_cases hside : other = side.other
      · subst hside
        simp only [Function.update_self]
        exact (h.within side.other).drain hcount
      · simp only [Function.update_of_ne hside]
        exact h.within other
    · intro other
      simp only [sentTo_concat, receivedFrom_concat]
      by_cases hside : other = side.other
      · subst hside
        simp only [Function.update_self, Event.dataFrom, Event.dataTo, Side.other_other, if_true,
          List.append_nil]
        have hlossless := h.lossless side.other
        rw [Side.other_other] at hlossless
        rw [RelayBuffer.pending_drain, List.append_assoc, List.take_append_drop]
        exact hlossless
      · have hside' : side ≠ other.other := by
          rintro rfl
          exact hside (Side.other_other other).symm
        simp only [Function.update_of_ne hside, Event.dataFrom, Event.dataTo, if_neg hside',
          List.append_nil]
        exact h.lossless other
    · exact fun _ _ hevent ↦ Event.noConfusion hevent
    · exact fun _ hevent ↦ Event.noConfusion hevent
  · exact h
  · exact intact_handleCloseFrom h side

/-! ### A pass over the slots -/

theorem used_handleRead (side : Side) (result : RecvResult) (work : Work) :
    (handleRead side result work).slot.used = work.slot.used := by
  unfold handleRead
  rcases result with bytes | _ | _
  · dsimp only
    split_ifs <;> rfl
  · dsimp only
    split_ifs <;> rfl
  · dsimp only
    split_ifs <;> rfl

theorem used_handleWrite (side : Side) (result : SendResult) (work : Work) :
    (handleWrite side result work).slot.used = work.slot.used := by
  unfold handleWrite
  rcases result with bytes | _ | _
  · dsimp only
    split_ifs <;> rfl
  · dsimp only
    split_ifs <;> rfl
  · dsimp only
    split_ifs <;> rfl

def SlotSound (slot : Slot) : Prop :=
  (slot.used = false ∧ slot.coClosed = true) ∨ (slot.used = true ∧ Intact slot)

theorem slotSound_serveSlot (readfds writefds : ℤ → Bool) (recv : Side → RecvResult)
    (send : Side → SendResult) (work : Work) (h : SlotSound work.slot) :
    SlotSound (serveSlot readfds writefds recv send work).slot := by
  by_cases hclosed : work.slot.coClosed = true
  · rw [serveSlot, if_pos hclosed]
    exact h
  have hstart : work.slot.used = true ∧ Intact work.slot :=
    h.resolve_left fun hunused ↦ hclosed hunused.2
  obtain ⟨last, ⟨hused, hintact⟩, hserve⟩ := serveSlot_cases
    (P := fun work ↦ work.slot.used = true ∧ Intact work.slot)
    (fun side result work h hopen ↦
      ⟨(used_handleRead side result work).trans h.1, intact_handleRead h.2 hopen result⟩)
    (fun side result work h hopen ↦
      ⟨(used_handleWrite side result work).trans h.1, intact_handleWrite h.2 hopen result⟩)
    readfds writefds recv send work (eq_false_of_ne_true hclosed) hstart
  rw [hserve]
  split_ifs
  · exact Or.inr ⟨hused, hintact.within, hintact.lossless, hintact.inOrder, hintact.drained,
      hintact.closing⟩
  · exact Or.inr ⟨hused, hintact⟩

/-! ### New connections -/

/-- A connection on which nothing has happened but that it may have been closed. -/
structure Untouched (slot : Slot) : Prop where
  used : slot.used = true
  positions : ∀ side, (slot.buffer side).wpos = 0 ∧ (slot.buffer side).rpos = 0
  events : ∀ event ∈ slot.events, ∃ side, event = .closed side
  coClosing : slot.coClosing = false
  closed : slot.events ≠ [] → ∀ side, slot.closed side = true

theorem streams_of_closings {events : List Event}
    (h : ∀ event ∈ events, ∃ side, event = .closed side) (side : Side) : receivedFrom side events =
      [] ∧ sentTo side events = [] := by
  constructor
  · refine List.flatMap_eq_nil_iff.mpr fun event hevent ↦ ?_
    obtain ⟨other, rfl⟩ := h event hevent
    rfl
  · refine List.flatMap_eq_nil_iff.mpr fun event hevent ↦ ?_
    obtain ⟨other, rfl⟩ := h event hevent
    rfl

theorem Untouched.intact {slot : Slot} (h : Untouched slot) : Intact slot where
  within side := by
    obtain ⟨hwpos, hrpos⟩ := h.positions side
    exact ⟨by omega, by omega⟩
  lossless side := by
    obtain ⟨hwpos, hrpos⟩ := h.positions side
    rw [(streams_of_closings h.events side).1, (streams_of_closings h.events side.other).2,
      RelayBuffer.pending_eq_nil (by omega)]
    rfl
  inOrder side front hfront := by
    have hevents := fun event hevent ↦ h.events event (hfront.subset hevent)
    rw [(streams_of_closings hevents side.other).2]
    exact List.nil_prefix
  drained side front back hsplit := by
    have hevents : ∀ event ∈ front, ∃ side, event = Event.closed side := fun event hevent ↦
      h.events event (by rw [hsplit]; exact List.mem_append_left _ hevent)
    refine Or.inr ⟨h.closed (by simp [hsplit]) _, ?_⟩
    rw [(streams_of_closings hevents side).2, (streams_of_closings h.events side.other).1]
  closing hclosing := by
    rw [h.coClosing] at hclosing
    exact Bool.noConfusion hclosing

theorem Untouched.refuse {work : Work} (h : Untouched work.slot) :
    Untouched (refuse work).slot where
  used := h.used
  positions := h.positions
  events := by
    intro event hevent
    rcases List.mem_append.mp hevent with hevent | hevent
    · exact h.events event hevent
    · exact ⟨.re, List.mem_singleton.mp hevent⟩
  coClosing := h.coClosing
  closed _ _ := rfl

theorem Untouched.denyLoop {work : Work} (h : Untouched work.slot) (text : List UInt8)
    (rules : List (List UInt8)) (offset total : ℕ) :
    Untouched (denyLoop text rules offset total work).slot := by
  refine List.foldlRecOn (motive := fun work : Work ↦ Untouched work.slot) (List.range total) _ h ?_
  intro work h j _
  split_ifs
  · exact h.refuse
  · exact h

theorem Untouched.of_closings {old new : Slot} (h : Untouched old) (hused : new.used = old.used)
    (hbuffer : new.buffer = old.buffer) (hclosing : new.coClosing = old.coClosing)
    (hclosed : ∀ side, new.closed side = true) (closings : List Event)
    (hclosings : ∀ event ∈ closings, ∃ side, event = .closed side)
    (hevents : new.events = old.events ++ closings) : Untouched new where
  used := hused.trans h.used
  positions := hbuffer ▸ h.positions
  events := by
    intro event hevent
    rw [hevents] at hevent
    exact (List.mem_append.mp hevent).elim (h.events event) (hclosings event)
  coClosing := hclosing.trans h.coClosing
  closed _ := hclosed

theorem Untouched.openLocalFd {work : Work} (h : Untouched work.slot) (server : Server)
    (input : AcceptInput) : Untouched (openLocalFd server input work).slot := by
  unfold Rinetd.openLocalFd
  split_ifs
  · exact h.of_closings rfl rfl rfl (fun _ ↦ rfl) [.closed .re] (by simp) rfl
  · exact h.of_closings rfl rfl rfl (fun _ ↦ rfl) [.closed .lo, .closed .re]
      (by simp) (List.append_assoc _ _ _)
  · exact h.of_closings rfl rfl rfl (fun _ ↦ rfl) [.closed .lo, .closed .re]
      (by simp) (List.append_assoc _ _ _)
  · exact ⟨h.used, h.positions, h.events, h.coClosing, h.closed⟩

theorem untouched_placeConnection (settings : Settings) (i : ℕ) (input : AcceptInput)
    (address : UInt8 × UInt8 × UInt8 × UInt8) (fd : ℤ) (work : Work) :
    Untouched (placeConnection settings i input address fd work).slot := by
  unfold placeConnection
  extract_lets _ _ _ _ _ start
  have hstart : Untouched start.slot :=
    ⟨rfl, fun _ ↦ ⟨rfl, rfl⟩, fun _ hevent ↦ absurd hevent List.not_mem_nil, rfl,
      fun hevents ↦ absurd rfl hevents⟩
  split_ifs
  · exact hstart.refuse
  · exact (hstart.denyLoop _ _ _ _).refuse
  · exact ((hstart.denyLoop _ _ _ _).denyLoop _ _ _ _).openLocalFd _ _

/-! ### Every run -/

/-- In every run every connection is relayed with integrity. -/
theorem relayIntegrity_of_reachable {settings : Settings} {state : State}
    (hreach : Reachable (selectLoop settings) (fun _ _ ↦ True) state) {slot : Slot}
    (hslot : slot ∈ state.slots) (hused : slot.used = true) : RelayIntegrity slot := by
  have hsound : SlotSound slot := by
    refine forall_slots_of_reachable hreach ?_ ?_ slotSound_serveSlot slot hslot
    · exact fun slot hclosed hunused _ ↦ Or.inl ⟨hunused, hclosed⟩
    · intro i input address fd work _
      have huntouched := untouched_placeConnection settings i input address fd work
      exact Or.inr ⟨huntouched.used, huntouched.intact⟩
  rcases hsound with ⟨hunused, -⟩ | ⟨-, hintact⟩
  · rw [hused] at hunused
    exact Bool.noConfusion hunused
  · exact hintact.relayIntegrity

def openRule : Settings :=
  ⟨[⟨16777343, [97], 1, [98], 2⟩], ⟨[], 0, [⟨0, 0⟩]⟩, ⟨[], 0, [⟨0, 0⟩]⟩, none, none, false⟩

def readyPass (acceptable : Bool) (recv : Side → RecvResult) (send : SendResult) : PassInput where
  acceptable _ := acceptable
  accepts _ := connectionFrom (8, 1, 1, 1)
  readable _ := true
  writable _ := true
  recv side _ := recv side
  send _ _ := send

/-- A connection is accepted, three bytes come from each end and two of them are sent on. Then the
remote end reaches its end of file. -/
def relayedState : State :=
  [readyPass true (fun _ ↦ .again) .again,
    readyPass false (fun _ ↦ .data [1, 2, 3]) .again,
    readyPass false (fun _ ↦ .again) (.count 2),
    readyPass false (fun side ↦ if side = .re then .data [] else .again) (.count 2),
    readyPass false (fun _ ↦ .again) (.count 2)].foldl
      (fun state input ↦ selectPass openRule input state) firstState

theorem reachable_relayedState :
    Reachable (selectLoop openRule) (fun _ _ ↦ True) relayedState :=
  reachable_foldl_selectPass (.start initial_firstState) _ fun _ _ _ ↦ trivial

/-- The local end of that connection is closed after the third byte has been sent to it. -/
theorem relayIntegrity_relayedState :
    ∃ slot ∈ relayedState.slots, slot.used = true ∧
      slot.events = [.received .re [1, 2, 3], .received .lo [1, 2, 3], .sent .re [1, 2],
        .sent .lo [1, 2], .ended .re, .closed .re, .sent .lo [3], .closed .lo] ∧
      RelayIntegrity slot := by
  have hrun : relayedState.slots.head?.map (fun slot ↦ (slot.used, slot.events)) =
      some (true, [.received .re [1, 2, 3], .received .lo [1, 2, 3], .sent .re [1, 2],
        .sent .lo [1, 2], .ended .re, .closed .re, .sent .lo [3], .closed .lo]) := by
    decide +kernel
  obtain ⟨slot, hslot, hfields⟩ := Option.map_eq_some_iff.mp hrun
  obtain ⟨hused, hevents⟩ := Prod.mk.inj hfields
  have hmem := List.mem_of_head? hslot
  exact ⟨slot, hmem, hused, hevents,
    relayIntegrity_of_reachable reachable_relayedState hmem hused⟩

end CrossBreeder.Rinetd
